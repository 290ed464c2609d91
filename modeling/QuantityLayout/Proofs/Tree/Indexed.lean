import QuantityLayout.Proofs.Entries
import QuantityLayout.Proofs.Positions
import QuantityLayout.Tree.Indexed
import Mathlib.Data.List.Nodup

set_option autoImplicit false

namespace QuantityLayout.Group.Indexed

variable {ν : Type} {g : Indexed ν} {name old new : String}

/-- The table has the name of every entry with its position, and no other name. -/
def WellIndexed (g : Indexed ν) : Prop := ∀ n i, g.position? n = some i ↔ g.group.names[i]? = some n

theorem wellIndexed_empty : (empty : Indexed ν).WellIndexed := by
  intro n i
  simp [empty, position?, group, names]

theorem WellIndexed.isSome_position? (hg : g.WellIndexed) (n : String) :
    (g.position? n).isSome = g.group.contains n := by
  rw [Bool.eq_iff_iff, Option.isSome_iff_exists, Group.contains, List.contains_iff_mem, List.mem_iff_getElem?]
  exact exists_congr fun i => hg n i

theorem WellIndexed.position_unique (hg : g.WellIndexed) {n : String} {i j : Nat} (hi : g.group.names[i]? = some n)
    (hj : g.group.names[j]? = some n) : i = j := by
  rw [← hg] at hi hj
  rw [hi] at hj
  exact Option.some.inj hj

theorem WellIndexed.names_nodup (hg : g.WellIndexed) : g.group.names.Nodup := by
  rw [List.nodup_iff_getElem?_ne_getElem?]
  intro i j hlt hj heq
  have hi : g.group.names[i]? = some g.group.names[j] := heq.trans (List.getElem?_eq_getElem hj)
  have := hg.position_unique hi (List.getElem?_eq_getElem hj)
  omega

theorem getElem?_names (g : Indexed ν) (i : Nat) : g.group.names[i]? = g.entries[i]?.map Prod.fst := List.getElem?_map

theorem WellIndexed.get?_group (hg : g.WellIndexed) (n : String) : g.get? n = g.group.get? n := by
  cases hi : g.position? n with
  | none =>
    cases hx : g.group.get? n with
    | none => simp [get?, hi]
    | some x =>
      obtain ⟨i, hmem⟩ := List.getElem?_of_mem (Entries.name_mem_of_lookup hx)
      rw [(hg n i).mpr hmem] at hi
      cases hi
  | some i =>
    have hname := (hg n i).mp hi
    rw [getElem?_names, Option.map_eq_some_iff] at hname
    obtain ⟨e, he, rfl⟩ := hname
    have hx : g.group.get? e.1 = some e.2 := Entries.lookup_of_mem hg.names_nodup (List.mem_of_getElem? he)
    simp [get?, hi, he, hx]

/-- The program does to a well indexed group what the change does. Where the change is refused, the program fails with
the same fault and the group is as it was. -/
def Carries (p : Program ν Unit) (change : Group ν → Except Fault (Group ν)) : Prop :=
  ∀ g, g.WellIndexed →
    (∃ g', p.run g = .ok () g' ∧ g'.WellIndexed ∧ change g.group = .ok g'.group) ∨
      ∃ f, p.run g = .error f g ∧ change g.group = .error f

theorem run_checkName (hg : g.WellIndexed) (name : String) :
    (checkName name).run g =
      match g.group.checkName name with
      | .ok () => .ok () g
      | .error f => .error f g := by
  unfold checkName Group.checkName
  rw [← hg.isSome_position?]
  cases Text.isIdentifier name with
  | false => simp
  | true => cases h : (g.position? name).isSome <;> simp [h]

def push (g : Indexed ν) (name : String) (x : ν) : Indexed ν :=
  ⟨g.entries ++ [(name, x)], g.positions.insert name g.entries.length, g.order⟩

theorem wellIndexed_push (hg : g.WellIndexed) (hname : name ∉ g.group.names) (x : ν) :
    (g.push name x).WellIndexed := by
  have hlen : g.group.names.length = g.entries.length := List.length_map Prod.fst
  have hnames : (g.push name x).group.names = g.group.names ++ [name] := by simp [names, group, push]
  have htable : Positions g.positions g.group.names := hg
  intro n i
  rw [hnames, position?, push, ← hlen]
  exact htable.insert hname n i

theorem carries_attach (name : String) (x : ν) : Carries (attach name x) (·.attach name x) := by
  intro g hg
  have hcheck := run_checkName hg name
  cases hc : g.group.checkName name with
  | error f =>
    rw [hc] at hcheck
    exact .inr ⟨f, by simp [attach, hcheck], by simp [Group.attach, hc, Except.map]⟩
  | ok u =>
    obtain ⟨-, hname⟩ := checkName_eq_ok.mp hc
    rw [hc] at hcheck
    have hrun : (attach name x).run g = .ok () (g.push name x) := by simp [attach, hcheck, push]
    have hgroup : g.group.attach name x = .ok (g.push name x).group := by
      rw [Group.attach, hc]
      rfl
    exact .inl ⟨g.push name x, hrun, wellIndexed_push hg hname x, hgroup⟩

def relabelAt (g : Indexed ν) (i : Nat) (old new : String) : Indexed ν :=
  ⟨g.entries.modify i fun e => (new, e.2), (g.positions.erase old).insert new i, g.order.map (·.rename old new)⟩

theorem group_relabelAt (hg : g.WellIndexed) {i : Nat} (hi : g.position? old = some i) (new : String) :
    (g.relabelAt i old new).group = g.group.relabel old new := by
  have hentries : (g.entries.modify i fun e => (new, e.2))
      = g.entries.map fun e => (if e.1 = old then new else e.1, e.2) := by
    apply List.ext_getElem?
    intro j
    rw [List.getElem?_modify, List.getElem?_map]
    cases he : g.entries[j]? with
    | none => simp
    | some e =>
      have hname : g.group.names[j]? = some e.1 := by rw [getElem?_names, he, Option.map_some]
      by_cases hj : i = j
      · subst hj
        rw [(hg old i).mp hi] at hname
        cases hname
        simp
      · have hne : e.1 ≠ old := by
          intro h
          rw [h] at hname
          exact hj (hg.position_unique ((hg old i).mp hi) hname)
        simp [hj, hne]
  simp only [relabelAt, group, relabel, hentries]

theorem position?_relabelAt (g : Indexed ν) (i : Nat) (old new n : String) :
    (g.relabelAt i old new).position? n = if new = n then some i else if old = n then none else g.position? n := by
  simp [position?, relabelAt, Std.HashMap.getElem?_insert, Std.HashMap.getElem?_erase]

/-- A name that was not there before becomes the name of one entry only. -/
theorem relabel_eq_iff {m n : String} (hm : m ≠ new) :
    (if m = old then new else m) = n ↔ if new = n then m = old else old ≠ n ∧ m = n := by
  by_cases hn : new = n
  · subst hn
    by_cases ho : m = old <;> simp [ho, hm]
  · by_cases ho : m = old
    · subst ho
      simp [hn]
    · simp only [ho, hn, if_false]
      refine ⟨fun h => ⟨fun h' => ho (h.trans h'.symm), h⟩, fun h => h.2⟩

theorem wellIndexed_relabelAt (hg : g.WellIndexed) {i : Nat} (hi : g.position? old = some i)
    (hnew : new ∉ g.group.names) : (g.relabelAt i old new).WellIndexed := by
  intro n j
  have hnames : (g.relabelAt i old new).group.names[j]?
      = (g.group.names[j]?).map fun m => if m = old then new else m := by
    rw [group_relabelAt hg hi, names_relabel, List.getElem?_map]
  have hmap : ∀ m, g.group.names[j]? = some m ∧ (if m = old then new else m) = n ↔
      g.position? m = some j ∧ if new = n then m = old else old ≠ n ∧ m = n := by
    intro m
    rw [← hg]
    refine and_congr_right fun hm => relabel_eq_iff fun heq => hnew ?_
    exact List.mem_of_getElem? ((hg new j).mp (heq ▸ hm))
  rw [hnames, Option.map_eq_some_iff, position?_relabelAt, exists_congr hmap]
  -- The new name has the position of the old one, the old one has none, every other name keeps its own.
  by_cases hn : new = n
  · simp [hn, hi]
  · by_cases ho : old = n <;> simp [hn, ho]

theorem carries_rename (old new : String) : Carries (rename old new : Program ν Unit) (·.rename old new) := by
  intro g hg
  have hcontains := hg.isSome_position? old
  cases hi : g.position? old with
  | none =>
    rw [hi] at hcontains
    exact .inr ⟨.missing old, by simp [rename, hi], by simp [Group.rename, ← hcontains]⟩
  | some i =>
    rw [hi] at hcontains
    by_cases heq : old = new
    · subst heq
      exact .inl ⟨g, by simp [rename, hi], hg, by simp [Group.rename, ← hcontains]⟩
    · have hcheck := run_checkName hg new
      have hrename : g.group.rename old new = (g.group.checkName new).map fun _ => g.group.relabel old new := by
        simp [Group.rename, ← hcontains, heq]
      cases hc : g.group.checkName new with
      | error f =>
        rw [hc] at hcheck hrename
        exact .inr ⟨f, by simp [rename, hi, heq, hcheck], hrename⟩
      | ok u =>
        obtain ⟨-, hnew⟩ := checkName_eq_ok.mp hc
        rw [hc] at hcheck hrename
        have hrun : (rename old new).run g = .ok () (g.relabelAt i old new) := by
          simp [rename, hi, heq, hcheck, relabelAt]
        rw [← group_relabelAt hg hi] at hrename
        exact .inl ⟨g.relabelAt i old new, hrun, wellIndexed_relabelAt hg hi hnew, hrename⟩

theorem carries_setOrder (o : Order) : Carries (setOrder o : Program ν Unit) (·.setOrder o) := by
  intro g hg
  obtain ⟨es, ps, current⟩ := g
  cases current with
  | none => exact .inl ⟨⟨es, ps, some o⟩, rfl, hg, rfl⟩
  | some o' => exact .inr ⟨.ordered, rfl, rfl⟩

end QuantityLayout.Group.Indexed
