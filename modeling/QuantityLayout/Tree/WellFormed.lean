import QuantityLayout.Tree.Node

set_option autoImplicit false

namespace QuantityLayout

namespace Group

variable {ν : Type}

def WellNamed (g : Group ν) : Prop := g.names.Nodup ∧ ∀ n ∈ g.names, Text.isIdentifier n

theorem wellNamed_empty : (empty : Group ν).WellNamed := by simp [WellNamed, empty, names]

theorem wellNamed_attach {g g' : Group ν} {name : String} {x : ν} (hg : g.WellNamed)
    (h : g.attach name x = .ok g') : g'.WellNamed := by
  obtain ⟨⟨hi, hn⟩, rfl⟩ := attach_eq_ok.mp h
  have hnames : (⟨g.entries ++ [(name, x)], g.order⟩ : Group ν).names = g.names ++ [name] := by simp [names]
  refine ⟨?_, ?_⟩
  · rw [hnames, List.nodup_append]
    refine ⟨hg.1, by simp, ?_⟩
    intro a ha b hb
    rcases List.mem_singleton.mp hb with rfl
    intro e
    exact hn (e ▸ ha)
  · intro n hm
    rw [hnames] at hm
    rcases List.mem_append.mp hm with hm | hm
    · exact hg.2 n hm
    · exact List.mem_singleton.mp hm ▸ hi

theorem wellNamed_relabel {g : Group ν} {old new : String} (hg : g.WellNamed)
    (hi : Text.isIdentifier new) (hn : new ∉ g.names) : (g.relabel old new).WellNamed := by
  refine ⟨?_, ?_⟩
  · rw [names_relabel]
    refine List.pairwise_map.mpr (List.Pairwise.imp_of_mem ?_ hg.1)
    intro a b ha hb hab
    by_cases h : a = old <;> by_cases h' : b = old <;> grind
  · intro n hm
    rw [names_relabel] at hm
    obtain ⟨m, hg', rfl⟩ := List.mem_map.mp hm
    split
    · exact hi
    · exact hg.2 m hg'

theorem wellNamed_rename {g g' : Group ν} {old new : String} (hg : g.WellNamed)
    (h : g.rename old new = .ok g') : g'.WellNamed := by
  unfold rename at h
  split at h
  · simp at h
  · split at h
    · cases h; exact hg
    · cases hc : g.checkName new with
      | error f => simp [hc, Except.map] at h
      | ok u =>
        obtain ⟨hi, hn⟩ := checkName_eq_ok.mp hc
        simp only [hc, Except.map, Except.ok.injEq] at h
        exact h ▸ wellNamed_relabel hg hi hn

theorem wellNamed_setOrder {g g' : Group ν} {o : Order} (hg : g.WellNamed)
    (h : g.setOrder o = .ok g') : g'.WellNamed := by
  unfold setOrder at h
  split at h
  · simp at h
  · cases h; exact hg

end Group

namespace Node

variable {α : Type}

mutual
def WellFormed : Node α → Prop
  | .leaf _ => True
  | .list ns => ns.length < countBound ∧ ItemsWellFormed ns
  | .group ⟨es, o⟩ => (⟨es, o⟩ : Group (Node α)).WellNamed ∧ EntriesWellFormed es

def ItemsWellFormed : List (Node α) → Prop
  | [] => True
  | n :: ns => n.WellFormed ∧ ItemsWellFormed ns

def EntriesWellFormed : List (String × Node α) → Prop
  | [] => True
  | (_, n) :: es => n.WellFormed ∧ EntriesWellFormed es
end

theorem itemsWellFormed_iff {ns : List (Node α)} : ItemsWellFormed ns ↔ ∀ n ∈ ns, n.WellFormed := by
  induction ns with
  | nil => simp [ItemsWellFormed]
  | cons n ns ih => simp [ItemsWellFormed, ih]

theorem entriesWellFormed_iff {es : List (String × Node α)} :
    EntriesWellFormed es ↔ ∀ e ∈ es, e.2.WellFormed := by
  induction es with
  | nil => simp [EntriesWellFormed]
  | cons e es ih => obtain ⟨s, n⟩ := e; simp [EntriesWellFormed, ih]

end Node
end QuantityLayout
