import QuantityLayout.Tree.Indexed

set_option autoImplicit false

namespace QuantityLayout.Group

variable {ν : Type}

inductive Action (ν : Type) where
  | attach : (name : String) → ν → Action ν
  | rename : (old new : String) → Action ν
  | setOrder : Order → Action ν

def act (g : Group ν) : Action ν → Except Fault (Group ν)
  | .attach name x => g.attach name x
  | .rename old new => g.rename old new
  | .setOrder o => g.setOrder o

def after (g : Group ν) (a : Action ν) : Group ν :=
  match g.act a with
  | .ok g' => g'
  | .error _ => g

def run (g : Group ν) (as : List (Action ν)) : Group ν := as.foldl after g

namespace Indexed

def perform : Action ν → Program ν Unit
  | .attach name x => attach name x
  | .rename old new => rename old new
  | .setOrder o => setOrder o

def left : EStateM.Result Fault (Indexed ν) Unit → Indexed ν
  | .ok () g => g
  | .error _ g => g

def answer : EStateM.Result Fault (Indexed ν) Unit → Except Fault (Group ν)
  | .ok () g => .ok g.group
  | .error f _ => .error f

def run (g : Indexed ν) (as : List (Action ν)) : Indexed ν := as.foldl (fun g a => left ((perform a).run g)) g

def history (as : List (Action ν)) : Indexed ν := empty.run as

end Indexed
end QuantityLayout.Group
