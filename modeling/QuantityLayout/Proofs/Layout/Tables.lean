import QuantityLayout.Proofs.Registry.Saving

set_option autoImplicit false

namespace QuantityLayout.Layout.Indexed

structure Exact (x : Indexed) : Prop where
  /-- A slot begins where all slots before it end, in both flattenings. -/
  offsets : ∀ (i : Nat) (s : Slot), x.slots[i]? = some s →
    s.numelOffset = word ((x.slots.take i).map (·.shape.numel)).sum ∧
      s.nnzOffset = ((x.slots.take i).map (·.shape.nnz)).sum
  totals : x.totalNumel = word (x.slots.map (·.shape.numel)).sum ∧ x.totalNnz = (x.slots.map (·.shape.nnz)).sum
  /-- As long as all these sums are counts, nothing is lost of them. -/
  inRange : x.layout.InRange →
    (∀ (i : Nat) (s : Slot), x.slots[i]? = some s → s.numelOffset = ((x.slots.take i).map (·.shape.numel)).sum) ∧
      x.totalNumel = (x.slots.map (·.shape.numel)).sum ∧ x.totalNnz ≤ x.totalNumel ∧
      x.slots.Pairwise fun s t => s.numelOffset < t.numelOffset
  positions : ∀ (p : Path) (i : Nat), x.positions[p]? = some i ↔ ∃ s, x.slots[i]? = some s ∧ s.path = p
  nonzeros : ∀ k i j : Nat, x.nonzeros[k]? = some (i, j) ↔
    ∃ s, x.slots[i]? = some s ∧ j < s.shape.nnz ∧ k = s.nnzOffset + j
  defined : ∀ k : Nat, (∃ e, x.nonzeros[k]? = some e) ↔ k < x.totalNnz
  /-- A search through the slots finds what the tables have. -/
  searches : (∀ p : Path, x.layout.indexOf p = x.positions[p]?) ∧ ∀ k : Nat, x.layout.nonzeroAt k = x.nonzeros[k]?

variable {x : Indexed} {ls : List (Path × Shape)}

namespace Of

theorem leaves_eq (h : x.Of ls) : x.slots.map (fun s => (s.path, s.shape)) = ls := by
  rw [h.slots, leaves_place]

theorem sum_take (h : x.Of ls) (f : Shape → Nat) (i : Nat) :
    ((x.slots.take i).map fun s => f s.shape).sum = ((ls.take i).map fun e => f e.2).sum := by
  rw [← h.leaves_eq, ← List.map_take, List.map_map]
  rfl

theorem sum (h : x.Of ls) (f : Shape → Nat) : (x.slots.map fun s => f s.shape).sum = (ls.map fun e => f e.2).sum := by
  have hsum := h.sum_take f ls.length
  rwa [List.take_length, ← h.length_slots, List.take_length] at hsum

theorem offsets (h : x.Of ls) {i : Nat} {s : Slot} (hs : x.slots[i]? = some s) :
    s.numelOffset = word ((x.slots.take i).map (·.shape.numel)).sum ∧
      s.nnzOffset = ((x.slots.take i).map (·.shape.nnz)).sum := by
  rw [h.sum_take Shape.numel, h.sum_take Shape.nnz]
  rw [h.slots, getElem?_place countBound_pos, Option.map_eq_some_iff] at hs
  obtain ⟨e, -, rfl⟩ := hs
  simp only [Nat.zero_add, and_self]

theorem getElem?_positions (h : x.Of ls) (p : Path) (i : Nat) :
    x.positions[p]? = some i ↔ ∃ s, x.slots[i]? = some s ∧ s.path = p := by
  rw [h.positions p i, ← h.paths_slots, List.getElem?_map, Option.map_eq_some_iff]

theorem getElem?_nonzeros (h : x.Of ls) (k : Nat) : x.nonzeros[k]? = findNonzero 0 x.slots k := by
  rw [h.nonzeros, h.slots]
  exact Indexed.getElem?_nonzeros 0 0 0 k ls

theorem nonzeros_iff (h : x.Of ls) (k i j : Nat) :
    x.nonzeros[k]? = some (i, j) ↔ ∃ s, x.slots[i]? = some s ∧ j < s.shape.nnz ∧ k = s.nnzOffset + j := by
  rw [h.getElem?_nonzeros, h.slots, findNonzero_place]
  simp only [Nat.zero_add, Prod.mk.injEq]
  constructor
  · intro h
    obtain ⟨i', j', s, ⟨rfl, rfl⟩, hs, hj, hk⟩ := h
    exact ⟨s, hs, hj, hk⟩
  · intro h
    obtain ⟨s, hs, hj, hk⟩ := h
    exact ⟨i, j, s, ⟨rfl, rfl⟩, hs, hj, hk⟩

end Of

theorem sum_take_lt (hrange : x.layout.InRange) (i : Nat) :
    ((x.slots.take i).map (·.shape.numel)).sum < countBound :=
  Nat.lt_of_le_of_lt (((List.take_sublist i x.slots).map _).sum_le_sum fun _ _ => Nat.zero_le _) hrange

theorem Of.inRange (h : x.Of ls) (hrange : x.layout.InRange) :
    (∀ (i : Nat) (s : Slot), x.slots[i]? = some s → s.numelOffset = ((x.slots.take i).map (·.shape.numel)).sum) ∧
      x.totalNumel = (x.slots.map (·.shape.numel)).sum ∧ x.totalNnz ≤ x.totalNumel ∧
      x.slots.Pairwise fun s t => s.numelOffset < t.numelOffset := by
  have hlt : (ls.map (·.2.numel)).sum < countBound := h.sum Shape.numel ▸ hrange
  have htotal : x.totalNumel = (ls.map (·.2.numel)).sum := h.totalNumel.trans (word_of_lt hlt)
  refine ⟨fun i s hs => ?_, htotal.trans (h.sum Shape.numel).symm, ?_, ?_⟩
  · rw [(h.offsets hs).1, word_of_lt (sum_take_lt hrange i)]
  · rw [htotal, h.totalNnz]
    exact List.sum_le_sum fun e _ => e.2.nnz_le_numel
  · exact h.slots ▸ pairwise_place (by rwa [Countable, Nat.zero_add]) 0

theorem Held.exact (hx : x.Held) : x.Exact := by
  have h := of_ofLeaves hx.computed
  obtain ⟨hpositions, hnonzeros⟩ := h.lookup hx.storable.paths.1
  have htotal : x.totalNnz = (x.slots.map (·.shape.nnz)).sum := h.totalNnz.trans (h.sum Shape.nnz).symm
  have hnumel : x.totalNumel = word (x.slots.map (·.shape.numel)).sum := by rw [h.totalNumel, h.sum Shape.numel]
  refine ⟨fun i s hs => h.offsets hs, ⟨hnumel, htotal⟩, h.inRange, h.getElem?_positions, h.nonzeros_iff, fun k => ?_,
    fun p => (hpositions p).symm, fun k => (hnonzeros k).symm⟩
  rw [h.getElem?_nonzeros, exists_findNonzero_iff, htotal]

theorem exists_held {α : Type} {r : Registry α} (hr : r.Reachable) {l : Layout} (hl : r.layout = .ok l)
    (hstored : l.totalNnz < countBound) : ∃ x : Indexed, x.Held ∧ x.layout = l := by
  obtain ⟨vs, -, hlay⟩ := Registry.resolve_eq_ok.mp (hr.sound.layout l (Registry.layout_eq_ok.mp hl))
  have hmap := map_layout_ofLeaves l.leaves
  rw [leaves_ofLeaves hlay, hlay, ← leaves_ofLeaves hlay] at hmap
  obtain ⟨x, hx, rfl⟩ := Outcome.map_eq_ok.mp hmap
  exact ⟨x, .frozen hr hl hx ((of_ofLeaves hx).length_nonzeros ▸ hstored), rfl⟩

/-- In every layout that there can be, offsets, totals and tables fit the slots, so the same leaves have them in one
form only. -/
theorem tables_exact :
    (∀ x : Indexed, x.Held → x.Exact) ∧
      ∀ (text text' : String) (stored stored' : Layout) (x x' : Indexed),
        loadUnchecked text = .ok stored → loadUnchecked text' = .ok stored' → stored.leaves = stored'.leaves →
        load text = .ok x → load text' = .ok x' → stored = stored' ∧ x = x' := by
  refine ⟨fun x hx => hx.exact, fun text text' stored stored' x x' hstored hstored' hleaves hx hx' => ?_⟩
  obtain ⟨hread, hcomputed⟩ := load_eq_ok.mp hx
  obtain ⟨hread', hcomputed'⟩ := load_eq_ok.mp hx'
  obtain rfl : stored = x.layout := Except.ok.inj (hstored.symm.trans hread)
  obtain rfl : stored' = x'.layout := Except.ok.inj (hstored'.symm.trans hread')
  obtain rfl : x = x' := Except.ok.inj (hcomputed.symm.trans (hleaves ▸ hcomputed'))
  exact ⟨rfl, rfl⟩

/-- The leaves of the layout with a leaf at the root, with one cell too many in the total. -/
def tampered : Layout := { rooted with totalNnz := 3 }

theorem readable_tampered : tampered.Readable := by
  obtain ⟨hwritable, hoffsets, htotals⟩ := storable_rooted.readable
  exact ⟨hwritable, hoffsets, htotals.1, by decide⟩

theorem tables_exact_samples :
    (∃ (x : Indexed) (s : Slot), x.Held ∧ Registry.frozenSample.layout = .ok x.layout ∧ x.layout.InRange ∧
      x.nonzeros[4]? = some (3, 0) ∧ x.slots[3]? = some s ∧ s.nnzOffset = 4 ∧ x.positions[s.path]? = some 3 ∧
      x.slots.Pairwise fun s t => s.numelOffset < t.numelOffset) ∧
    loadUnchecked rooted.save = .ok rooted ∧ loadUnchecked tampered.save = .ok tampered ∧
      rooted.leaves = tampered.leaves ∧ (∃ x, load rooted.save = .ok x) ∧ ¬ ∃ x, load tampered.save = .ok x := by
  obtain ⟨hexact, honly⟩ := tables_exact
  have hrooted := storable_rooted.readable.loadUnchecked_text
  have htampered := readable_tampered.loadUnchecked_text
  obtain ⟨x, hx, -⟩ := Outcome.map_eq_ok.mp ((map_layout_load rooted.save).trans storable_rooted.load_text)
  refine ⟨?_, hrooted, htampered, rfl, ⟨x, hx⟩, ?_⟩
  · obtain ⟨l, hl, hcount, hrange, hat⟩ : ∃ l, Registry.frozenSample.layout = .ok l ∧ l.totalNnz < countBound ∧
        l.InRange ∧ l.nonzeroAt 4 = some (3, 0) := ⟨_, rfl, by decide, by decide, by decide⟩
    obtain ⟨x, hx, rfl⟩ := exists_held Registry.reachable_frozenSample hl hcount
    have h := hexact x hx
    rw [h.searches.2] at hat
    obtain ⟨s, hs, -, hk⟩ := (h.nonzeros 4 3 0).mp hat
    exact ⟨x, s, hx, hl, hrange, hat, hs, hk.symm, (h.positions s.path 3).mpr ⟨s, hs, rfl⟩, (h.inRange hrange).2.2.2⟩
  · intro h
    obtain ⟨y, hy⟩ := h
    have hsame := (honly _ _ _ _ _ _ hrooted htampered rfl hx hy).1
    exact absurd hsame (by decide)

end QuantityLayout.Layout.Indexed
