import QuantityLayout.Proofs.Layout.Json

set_option autoImplicit false

namespace QuantityLayout

namespace Text

theorem isIdentifier_iff_read {n : String} : isIdentifier n ↔ readIdentifier n.toList = some (n, []) := by
  constructor
  · intro hn
    have hstop : Stops continuesIdentifier [] := by simp [Stops]
    have h := readIdentifier_toList hn hstop
    rwa [List.append_nil] at h
  · exact isIdentifier_of_read

end Text

namespace Path

variable {p : Path}

theorem render_name (n : String) : render [.name n] = n := by
  simp [render, chars]

theorem decode_render (hp : p.Writable) (style : Json.Style) : Json.decode ofJson (p.toJson.render style) = .ok p := by
  have hstyle : p.toJson.render style = p.toJson.render .pretty := rfl
  rw [hstyle]
  exact Json.decode_render (Json.Value.standard_ofText p.render) (ofJson_toJson hp)

theorem ofNames_of_identifiers {ns : List String} (h : ∀ n ∈ ns, Text.isIdentifier n) :
    ofNames ns = .ok (ns.map .name) := by
  induction ns with
  | nil => rfl
  | cons n ns ih =>
    obtain ⟨hn, hns⟩ := List.forall_mem_cons.mp h
    rw [ofNames, if_pos hn, ih hns, List.map_cons, Except.map]

theorem ofNames_eq_ok_iff {ns : List String} :
    ofNames ns = .ok p ↔ p = ns.map .name ∧ ∀ n ∈ ns, Text.isIdentifier n := by
  constructor
  · exact ofNames_eq_ok
  · rintro ⟨rfl, hns⟩
    exact ofNames_of_identifiers hns

theorem writable_of_ofNames {ns : List String} (h : ofNames ns = .ok p) : p.Writable := by
  obtain ⟨rfl, hns⟩ := ofNames_eq_ok h
  intro s hs
  obtain ⟨n, hn, rfl⟩ := List.mem_map.mp hs
  exact hns n hn

theorem isIdentifier_iff_parse {n : String} : Text.isIdentifier n ↔ parse n = .ok [.name n] := by
  constructor
  · intro hn
    have hwritable : Path.Writable [.name n] := List.forall_mem_singleton.mpr hn
    have h := parse_render_writable hwritable
    rwa [render_name] at h
  · intro h
    exact writable_of_parse h (.name n) List.mem_cons_self

/-- A path of identifiers and counts comes back from its text, and whatever is read is such a path. An identifier is a
text that is read as a path of one name. -/
theorem text_round_trip :
    (∀ p : Path, p.Writable → parse p.render = .ok p ∧ ofJson p.toJson = .ok p ∧
      ∀ style, Json.decode ofJson (p.toJson.render style) = .ok p) ∧
    (∀ s p, parse s = .ok p → p.Writable ∧ parse p.render = parse s) ∧
    (∀ v p, ofJson v = .ok p → p.Writable ∧ ofJson p.toJson = ofJson v) ∧
    (∀ ns p, (ofNames ns = .ok p ↔ p = ns.map .name ∧ ∀ n ∈ ns, Text.isIdentifier n) ∧
      (ofNames ns = .ok p → p.Writable ∧ parse p.render = .ok p)) ∧
    ∀ n, (Text.isIdentifier n ↔ parse n = .ok [.name n]) ∧
      (Text.isIdentifier n ↔ Text.readIdentifier n.toList = some (n, [])) := by
  refine ⟨fun p hp => ⟨parse_render_writable hp, ofJson_toJson hp, decode_render hp⟩, ?_, ?_, ?_, ?_⟩
  · intro s p h
    have hp := writable_of_parse h
    exact ⟨hp, (parse_render_writable hp).trans h.symm⟩
  · intro v p h
    have hp := writable_of_ofJson h
    exact ⟨hp, (ofJson_toJson hp).trans h.symm⟩
  · intro ns p
    refine ⟨ofNames_eq_ok_iff, fun h => ?_⟩
    have hp := writable_of_ofNames h
    exact ⟨hp, parse_render_writable hp⟩
  · intro n
    exact ⟨isIdentifier_iff_parse, Text.isIdentifier_iff_read⟩

/-- A mixture in which every kind of step comes after every kind but itself, with the greatest count. -/
def sampleSteps : Path :=
  [.element 0, .name "_", .index 18446744073709551615, .cell 3 4, .index 7, .element 1, .cell 0 18446744073709551615,
    .name "Ab9"]

theorem text_round_trip_sample :
    sampleSteps.render = "(0)._[18446744073709551615](3,4)[7](1)(0,18446744073709551615).Ab9" ∧
      parse sampleSteps.render = .ok sampleSteps ∧
      Json.decode ofJson (sampleSteps.toJson.render .compact) = .ok sampleSteps ∧
      parse (render []) = .ok [] ∧ ¬ Text.isIdentifier "9a" ∧ parse "9a" ≠ .ok [.name "9a"] := by
  obtain ⟨hback, -, -, -, hname⟩ := text_round_trip
  have hwritable : sampleSteps.Writable := by
    simp only [Path.Writable, sampleSteps, List.forall_mem_cons]
    refine ⟨?_, ?_, ?_, ?_, ?_, ?_, ?_, ?_, List.forall_mem_nil _⟩ <;> decide
  have hnine : ¬ Text.isIdentifier "9a" := by decide
  refine ⟨by decide, (hback _ hwritable).1, (hback _ hwritable).2.2 _, (hback [] (List.forall_mem_nil _)).1, hnine, ?_⟩
  exact fun h => hnine ((hname "9a").1.mpr h)

end Path
end QuantityLayout
