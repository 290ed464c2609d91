set_option autoImplicit false

namespace QuantityLayout

inductive Order.Item where
  | name : String → Order.Item
  | interleave : List String → Order.Item
  deriving DecidableEq, Repr

structure Order where
  items : List Order.Item
  deriving DecidableEq, Repr

namespace Order

def Item.names : Item → List String
  | .name n => [n]
  | .interleave ns => ns

def names (o : Order) : List String := o.items.flatMap Item.names

def Item.mapNames (f : String → String) : Item → Item
  | .name n => .name (f n)
  | .interleave ns => .interleave (ns.map f)

def rename (o : Order) (old new : String) : Order :=
  ⟨o.items.map (Item.mapNames fun n => if n = old then new else n)⟩

def Item.render : Item → String
  | .name n => n
  | .interleave ns => "(" ++ String.intercalate ", " ns ++ ")"

def render (o : Order) : String := "[" ++ String.intercalate ", " (o.items.map Item.render) ++ "]"

@[simp] theorem Item.names_mapNames (f : String → String) (i : Item) :
    (i.mapNames f).names = i.names.map f := by cases i <;> rfl

end Order
end QuantityLayout
