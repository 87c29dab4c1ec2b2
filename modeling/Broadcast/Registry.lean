import Broadcast.Application
import Broadcast.Kernel.Standard

/-!
# Registries

A registry holds kernels under their names. Registering a kernel replaces the one of the same name.

The kernels are kept in the order in which their names came first, and no two of them have one name:
`put` keeps it so. Nothing but `names` shows an order, and it sorts.
-/

namespace Broadcast

/-- Kernels by name. -/
structure Registry where
  kernels : List Kernel
  distinct : (kernels.map (·.name)).Nodup

namespace Registry

def empty : Registry :=
  ⟨[], .nil⟩

def get? (r : Registry) (name : String) : Option Kernel :=
  r.kernels.find? fun k => k.name = name

def contains (r : Registry) (name : String) : Bool :=
  r.kernels.any fun k => k.name = name

/-- The names in increasing order. -/
def names (r : Registry) : List String :=
  (r.kernels.map (·.name)).mergeSort

def size (r : Registry) : Nat :=
  r.kernels.length

/-- Puts a kernel in the place of the one of its name, or at the end if there is none. -/
def put (k : Kernel) : List Kernel → List Kernel
  | [] => [k]
  | held :: ks => if held.name = k.name then k :: ks else held :: put k ks

/-- A name that is there already keeps its place, and another one comes last. -/
theorem map_name_put (k : Kernel) (ks : List Kernel) : (put k ks).map (·.name)
    = if k.name ∈ ks.map (·.name) then ks.map (·.name) else ks.map (·.name) ++ [k.name] := by
  induction ks with
  | nil => rfl
  | cons held ks ih =>
    unfold put
    by_cases hk : held.name = k.name
    · simp [hk]
    · rw [if_neg hk, List.map_cons, ih]
      have hne : k.name ≠ held.name := fun h => hk h.symm
      split <;> simp_all

theorem nodup_put {ks : List Kernel} (h : (ks.map (·.name)).Nodup) (k : Kernel) :
    ((put k ks).map (·.name)).Nodup := by
  rw [map_name_put]
  split
  · exact h
  · simp_all [List.nodup_append]

/-- Puts a kernel under its name without looking at it. -/
def insert (r : Registry) (k : Kernel) : Registry :=
  ⟨put k r.kernels, nodup_put r.distinct k⟩

/--
Registers a kernel. Gives back the kernel that it replaces, and the registry as it is then: a kernel
is looked at before it is put under its name.
-/
def register (r : Registry) (k : Kernel) : Except Fault (Option Kernel) × Registry :=
  if !Kernel.acceptsArity k.arity then (.error (.kernelArity k.name k.arity), r)
  else if k.arity ≤ k.promoteFrom then
    (.error (.kernelPromotion k.name k.promoteFrom k.arity), r)
  else (.ok (r.get? k.name), r.insert k)

/-- The registry after some calls to register kernels, whatever each of them gave back. -/
def run (r : Registry) (calls : List Kernel) : Registry :=
  calls.foldl (fun r k => (r.register k).2) r

/-- The registry of the standard kernels, none of which is refused. -/
def standard : Registry :=
  empty.run Kernel.standard

/-- The application of the kernel under a name. -/
def build (r : Registry) (name : String) (args : List (Operand Value)) :
    Except Error Application :=
  match r.get? name with
  | some k => Application.of k args
  | none => .error (.unknownOperation name)

end Registry

end Broadcast
