import QuantityLayout.Proofs.Order.Units

set_option autoImplicit false

namespace QuantityLayout.Order

variable {β : Type} {policy : Policy} {entries entries' : List (String × Column β)} {o : Order} {n : String} {c : Column β}

/-- The names stand for the same entries in both lists, or for none in both. -/
def Agree (entries entries' : List (String × Column β)) (ns : List String) : Prop :=
  ∀ n ∈ ns, entries.lookup n = entries'.lookup n

theorem column_congr (h : entries.lookup n = entries'.lookup n) : column entries n = column entries' n := by
  rw [column, column, h]

theorem tuple_congr {ns : List String} (h : Agree entries entries' ns) : tuple entries ns = tuple entries' ns := by
  induction ns with
  | nil => rfl
  | cons n ns ih =>
    obtain ⟨hn, hns⟩ := List.forall_mem_cons.mp h
    rw [tuple, tuple, column_congr hn, ih hns]

theorem Item.resolve_congr {i : Item} (h : Agree entries entries' i.names) :
    i.resolve policy entries = i.resolve policy entries' := by
  cases i with
  | name n => rw [resolve, resolve, column_congr (h n (List.mem_singleton_self n))]
  | interleave ns =>
    rw [names] at h
    rw [resolve, resolve, tuple_congr h]

theorem resolveItems_congr {is : List Item} (h : Agree entries entries' (is.flatMap Item.names)) :
    resolveItems policy entries is = resolveItems policy entries' is := by
  induction is with
  | nil => rfl
  | cons i is ih =>
    rw [List.flatMap_cons] at h
    have hi : Agree entries entries' i.names := fun n hn => h n (List.mem_append_left _ hn)
    have his : Agree entries entries' (is.flatMap Item.names) := fun n hn => h n (List.mem_append_right _ hn)
    rw [resolveItems, resolveItems, Item.resolve_congr hi, ih his]

/-- An order that mentions every entry does not depend on their sequence. -/
theorem resolve_perm (hperm : entries.Perm entries') (hnames : (entries.map Prod.fst).Nodup)
    (ho : ∀ n ∈ entries.map Prod.fst, n ∈ o.names) : o.resolve policy entries = o.resolve policy entries' := by
  have hitems : resolveItems policy entries o.items = resolveItems policy entries' o.items :=
    resolveItems_congr fun n _ => Entries.lookup_perm hnames hperm n
  have homitted : o.omitted entries = [] := omitted_eq_nil.mpr ho
  have homitted' : o.omitted entries' = [] := omitted_eq_nil.mpr fun n hn => ho n ((hperm.map Prod.fst).mem_iff.mpr hn)
  rw [resolve, resolve, hitems, homitted, homitted']

theorem omitted_concat (hn : n ∉ o.names) (entries : List (String × Column β)) (c : Column β) :
    o.omitted (entries ++ [(n, c)]) = o.omitted entries ++ [(n, c)] := by
  rw [omitted, List.filter_append, List.filter_singleton]
  simp [omitted, hn]

/-- An entry that is not mentioned is the last unit. -/
theorem resolve_concat {us : List β} (hp : policy.omission = .appendOmitted) (hn : n ∉ o.names)
    (h : o.resolve policy entries = .ok us) : o.resolve policy (entries ++ [(n, c)]) = .ok (us ++ [c.whole]) := by
  have hagree : Agree (entries ++ [(n, c)]) entries o.names :=
    fun m hm => Entries.lookup_concat_ne c fun heq => hn (heq ▸ hm)
  obtain ⟨hnames, hitems, -, rfl⟩ := resolve_eq_ok.mp h
  have hunits := (resolveItems_congr hagree).trans (resolveItems_eq_ok.mpr ⟨hitems, rfl⟩)
  obtain ⟨hitems', hsame⟩ := resolveItems_eq_ok.mp hunits
  refine resolve_eq_ok.mpr ⟨hnames, hitems', fun hrequired => ?_, ?_⟩
  · rw [hp] at hrequired
    cases hrequired
  · rw [omitted_concat hn, ← hsame, List.map_append, List.append_assoc]
    rfl

theorem resolve?_concat {o : Option Order} {us : List β} (hp : policy.omission = .appendOmitted)
    (hn : n ∉ entries.map Prod.fst) (h : resolve? policy entries o = .ok us) :
    resolve? policy (entries ++ [(n, c)]) o = .ok (us ++ [c.whole]) := by
  cases o with
  | none =>
    cases h
    simp [resolve?]
  | some o => exact resolve_concat hp (fun hmem => hn (attached_of_resolve h n hmem)) h

end QuantityLayout.Order
