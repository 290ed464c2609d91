import QuantityLayout.Proofs.Order.Units
import QuantityLayout.Tree.Completed

set_option autoImplicit false

namespace QuantityLayout.Order

variable {β : Type} {policy : Policy} {entries : List (String × Column β)} {o : Order}

theorem flatMap_names_map_name (ns : List String) : (ns.map Item.name).flatMap Item.names = ns := by
  induction ns with
  | nil => rfl
  | cons n ns ih =>
    rw [List.map_cons, List.flatMap_cons, ih]
    rfl

theorem names_completed (o : Order) (ns : List String) : (o.completed ns).names = o.names ++ ns.filter (· ∉ o.names) := by
  rw [names, completed, List.flatMap_append, flatMap_names_map_name]
  rfl

theorem mem_names_completed {ns : List String} {n : String} (hn : n ∈ ns) : n ∈ (o.completed ns).names := by
  rw [names_completed, List.mem_append]
  by_cases ho : n ∈ o.names
  · exact .inl ho
  · exact .inr (List.mem_filter.mpr ⟨hn, decide_eq_true ho⟩)

theorem resolveItems_omission (a b : Policy.Omission) (i : Policy.Interleaving) (is : List Item) :
    resolveItems ⟨a, i⟩ entries is = resolveItems ⟨b, i⟩ entries is := by
  induction is with
  | nil => rfl
  | cons item is ih =>
    have hitem : item.resolve ⟨a, i⟩ entries = item.resolve ⟨b, i⟩ entries := by cases item <;> rfl
    rw [resolveItems, resolveItems, hitem, ih]

theorem resolveItems_append {js : List Item} {vs : List β} (hjs : resolveItems policy entries js = .ok vs) (is : List Item) :
    resolveItems policy entries (is ++ js) = (resolveItems policy entries is).map (· ++ vs) := by
  induction is with
  | nil => exact hjs
  | cons i is ih =>
    rw [List.cons_append, resolveItems, ih, resolveItems]
    cases i.resolve policy entries with
    | error f => rfl
    | ok us =>
      cases resolveItems policy entries is with
      | error f => rfl
      | ok ws => exact congrArg Except.ok (List.append_assoc us ws vs).symm

theorem resolveItems_map_name (policy : Policy) (hnames : (entries.map Prod.fst).Nodup) {es : List (String × Column β)}
    (hes : ∀ e ∈ es, e ∈ entries) :
    resolveItems policy entries (es.map fun e => .name e.1) = .ok (es.map fun e => e.2.whole) := by
  induction es with
  | nil => rfl
  | cons e es ih =>
    obtain ⟨he, hes⟩ := List.forall_mem_cons.mp hes
    have hcolumn : column entries e.1 = .ok e.2 := column_eq_ok.mpr (Entries.lookup_of_mem hnames he)
    rw [List.map_cons, resolveItems, ih hes, Item.resolve, hcolumn]
    rfl

theorem completed_eq (o : Order) (entries : List (String × Column β)) :
    o.completed (entries.map Prod.fst) = ⟨o.items ++ (o.omitted entries).map fun e => .name e.1⟩ := by
  rw [completed, ← map_fst_omitted, List.map_map]
  rfl

theorem firstRepeat_completed {ns : List String} (hns : ns.Nodup) (o : Order) :
    firstRepeat (o.completed ns).names = firstRepeat o.names := by
  rw [names_completed]
  exact firstRepeat_append (hns.filter _) fun n hn => of_decide_eq_true (List.mem_filter.mp hn).2

/-- Whether omitted entries come last or are written at the end of the order, the outcome is one and the same. -/
theorem resolve_completed (hnames : (entries.map Prod.fst).Nodup) (o : Order) (i : Policy.Interleaving) :
    (o.completed (entries.map Prod.fst)).resolve ⟨.requireComplete, i⟩ entries =
      o.resolve ⟨.appendOmitted, i⟩ entries := by
  have hnone : (o.completed (entries.map Prod.fst)).omitted entries = [] :=
    omitted_eq_nil.mpr fun n hn => mem_names_completed hn
  have hlast := resolveItems_map_name ⟨.requireComplete, i⟩ hnames
    fun e (he : e ∈ o.omitted entries) => List.mem_of_mem_filter he
  rw [resolve, resolve, firstRepeat_completed hnames, hnone, completed_eq, resolveItems_append hlast,
    resolveItems_omission .requireComplete .appendOmitted]
  cases firstRepeat o.names with
  | some n => rfl
  | none =>
    cases resolveItems ⟨.appendOmitted, i⟩ entries o.items with
    | error f => rfl
    | ok us => exact congrArg Except.ok (List.append_nil _)

end QuantityLayout.Order
