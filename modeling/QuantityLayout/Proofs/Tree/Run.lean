import QuantityLayout.Proofs.Tree.Indexed
import QuantityLayout.Tree.Run
import QuantityLayout.Tree.WellFormed

set_option autoImplicit false

namespace QuantityLayout.Group

variable {ν : Type}

theorem wellNamed_after {g : Group ν} (hg : g.WellNamed) (a : Action ν) : (g.after a).WellNamed := by
  unfold after
  cases h : g.act a with
  | error f => exact hg
  | ok g' =>
    cases a with
    | attach name x => exact wellNamed_attach hg h
    | rename old new => exact wellNamed_rename hg h
    | setOrder o => exact wellNamed_setOrder hg h

theorem wellNamed_run {g : Group ν} (hg : g.WellNamed) (as : List (Action ν)) : (g.run as).WellNamed := by
  induction as generalizing g with
  | nil => exact hg
  | cons a as ih => exact ih (wellNamed_after hg a)

namespace Indexed

variable {g h : Indexed ν}

theorem perform_cases (hg : g.WellIndexed) (a : Action ν) :
    (∃ g', (perform a).run g = .ok () g' ∧ g'.WellIndexed ∧ g.group.act a = .ok g'.group) ∨
      ∃ f, (perform a).run g = .error f g ∧ g.group.act a = .error f := by
  cases a with
  | attach name x => exact carries_attach name x g hg
  | rename old new => exact carries_rename old new g hg
  | setOrder o => exact carries_setOrder o g hg

theorem answer_perform (hg : g.WellIndexed) (a : Action ν) : answer ((perform a).run g) = g.group.act a := by
  obtain ⟨g', hrun, -, hact⟩ | ⟨f, hrun, hact⟩ := perform_cases hg a
  · rw [hrun, hact, answer]
  · rw [hrun, hact, answer]

theorem unchanged_of_error (hg : g.WellIndexed) {a : Action ν} {f : Fault} {g' : Indexed ν}
    (h : (perform a).run g = .error f g') : g' = g := by
  obtain ⟨g'', hrun, -⟩ | ⟨f', hrun, -⟩ := perform_cases hg a
  · rw [hrun] at h
    cases h
  · rw [hrun] at h
    cases h
    rfl

theorem left_perform (hg : g.WellIndexed) (a : Action ν) :
    (left ((perform a).run g)).WellIndexed ∧ (left ((perform a).run g)).group = g.group.after a := by
  unfold Group.after
  obtain ⟨g', hrun, hindexed, hact⟩ | ⟨f, hrun, hact⟩ := perform_cases hg a
  · rw [hrun, hact]
    exact ⟨hindexed, rfl⟩
  · rw [hrun, hact]
    exact ⟨hg, rfl⟩

theorem group_run (hg : g.WellIndexed) (as : List (Action ν)) :
    (g.run as).WellIndexed ∧ (g.run as).group = g.group.run as := by
  induction as generalizing g with
  | nil => exact ⟨hg, rfl⟩
  | cons a as ih =>
    obtain ⟨hindexed, hgroup⟩ := left_perform hg a
    have hrest := ih hindexed
    rw [hgroup] at hrest
    exact hrest

theorem WellIndexed.contains_group (hg : g.WellIndexed) (n : String) : g.contains n = g.group.contains n :=
  hg.isSome_position? n

theorem WellIndexed.position_eq_some (hg : g.WellIndexed) {n : String} {i : Nat} :
    g.position? n = some i ↔ ∃ x, g.entries[i]? = some (n, x) := by
  rw [hg n i, getElem?_names]
  cases g.entries[i]? with
  | none => simp
  | some e => simp [Prod.ext_iff]

theorem WellIndexed.positions_beq (hg : g.WellIndexed) (hh : h.WellIndexed) (hnames : g.group.names = h.group.names) :
    g.positions == h.positions := by
  refine Std.HashMap.Equiv.beq (Std.HashMap.Equiv.of_forall_getElem?_eq fun n => Option.ext fun i => ?_)
  have hboth := (hg n i).trans (hnames ▸ (hh n i).symm)
  exact hboth

section Alike

variable [BEq ν]

theorem names_eq_of_beq {es fs : List (String × ν)} (h : es == fs) : es.map Prod.fst = fs.map Prod.fst := by
  induction es generalizing fs with
  | nil =>
    cases fs with
    | nil => rfl
    | cons f fs => cases h
  | cons e es ih =>
    cases fs with
    | nil => cases h
    | cons f fs =>
      have hparts : (e.1 == f.1 && e.2 == f.2 && es == fs) = true := h
      simp only [Bool.and_eq_true, beq_iff_eq] at hparts
      rw [List.map_cons, List.map_cons, hparts.1.1, ih hparts.2]

theorem WellIndexed.beq_iff (hg : g.WellIndexed) (hh : h.WellIndexed) :
    g == h ↔ g.entries == h.entries ∧ g.order = h.order := by
  have hparts : (g == h) = (g.entries == h.entries && g.positions == h.positions && g.order == h.order) := rfl
  simp only [hparts, Bool.and_eq_true, beq_iff_eq]
  refine ⟨fun hx => ⟨hx.1.1, hx.2⟩, fun hx => ⟨⟨hx.1, ?_⟩, hx.2⟩⟩
  exact hg.positions_beq hh (names_eq_of_beq hx.1)

end Alike

/-- After any edits a group has the entries, the order and the answers of one without a table, and two groups are alike
if their entries and orders are. -/
theorem follows_entries [BEq ν] (edits : List (Action ν)) :
    (history edits).group = Group.empty.run edits ∧
    (∀ edit, answer ((perform edit).run (history edits)) = (history edits).group.act edit) ∧
    (history edits).group.names.Nodup ∧ (∀ n ∈ (history edits).group.names, Text.isIdentifier n) ∧
    (∀ n i, (history edits).position? n = some i ↔ ∃ x, (history edits).entries[i]? = some (n, x)) ∧
    (∀ n, (history edits).get? n = (history edits).entries.lookup n ∧
      ((history edits).contains n ↔ ∃ x, (n, x) ∈ (history edits).entries)) ∧
    (∀ edit f g, (perform edit).run (history edits) = .error f g → g = history edits) ∧
    ∀ others : List (Action ν),
      (history edits == history others ↔
        (history edits).entries == (history others).entries ∧ (history edits).order = (history others).order) ∧
      (LawfulBEq ν → (history edits == history others ↔
        (history edits).entries = (history others).entries ∧ (history edits).order = (history others).order)) := by
  have hindexed (edits : List (Action ν)) : (history edits).WellIndexed := (group_run wellIndexed_empty edits).1
  have hgroup : (history edits).group = Group.empty.run edits := (group_run wellIndexed_empty edits).2
  have h := hindexed edits
  obtain ⟨hnodup, hidentifiers⟩ : (history edits).group.WellNamed := hgroup ▸ wellNamed_run wellNamed_empty edits
  refine ⟨hgroup, answer_perform h, hnodup, hidentifiers, fun n i => h.position_eq_some, fun n => ⟨h.get?_group n, ?_⟩,
    fun edit f g hrun => unchanged_of_error h hrun, fun others => ⟨h.beq_iff (hindexed others), fun hlawful => ?_⟩⟩
  · rw [h.contains_group, Group.contains, List.contains_iff_mem]
    simp [names, group]
  · rw [h.beq_iff (hindexed others), beq_iff_eq]

def sampleEdits : List (Action Nat) :=
  [.attach "a" 1, .attach "b" 2, .setOrder ⟨[.interleave ["b", "a"]]⟩, .rename "a" "c", .attach "c" 3, .attach "a" 4,
    .rename "b" "1"]

theorem follows_entries_sample :
    (history sampleEdits).entries = [("c", 1), ("b", 2), ("a", 4)] ∧ (∀ n ∈ ["c", "b", "a"], Text.isIdentifier n) ∧
      (history sampleEdits).position? "a" = some 2 ∧ (history sampleEdits).get? "c" = some 1 ∧
      (perform (.attach "b" 5)).run (history sampleEdits) = .error (.taken "b") (history sampleEdits) ∧
      history sampleEdits == history (sampleEdits ++ sampleEdits) := by
  obtain ⟨hgroup, hanswer, -, hidentifiers, hpositions, hget, hrefused, halike⟩ := follows_entries sampleEdits
  have hsample : Group.empty.run sampleEdits = ⟨[("c", 1), ("b", 2), ("a", 4)], some ⟨[.interleave ["b", "c"]]⟩⟩ := by
    decide
  have hagain : Group.empty.run (sampleEdits ++ sampleEdits) = Group.empty.run sampleEdits := by decide
  obtain ⟨hsame, -⟩ := follows_entries (sampleEdits ++ sampleEdits)
  have hentries : (history sampleEdits).entries = [("c", 1), ("b", 2), ("a", 4)] :=
    congrArg Group.entries (hgroup.trans hsample)
  have hequal := (hsame.trans hagain).trans hgroup.symm
  refine ⟨hentries, ?_, (hpositions "a" 2).mpr ⟨4, by rw [hentries]; rfl⟩, ?_, ?_, ?_⟩
  · rw [hgroup, hsample] at hidentifiers
    exact hidentifiers
  · rw [(hget "c").1, hentries]
    decide
  · have hb := hanswer (.attach "b" 5)
    rw [hgroup, hsample] at hb
    cases hrun : (perform (.attach "b" 5)).run (history sampleEdits) with
    | ok u g =>
      rw [hrun] at hb
      cases hb
    | error f g =>
      rw [hrun] at hb
      cases hb
      rw [hrefused _ _ _ hrun]
  · exact ((halike _).2 inferInstance).mpr ⟨(congrArg Group.entries hequal).symm, (congrArg Group.order hequal).symm⟩

end Indexed
end QuantityLayout.Group
