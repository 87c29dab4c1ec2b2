import Broadcast.Proofs.Replacement

/-!
# Reported types are sound

Every value carries the type of its element, and every operand reports a type before anything is
read. The two agree wherever an element can only come out of a fixed type. Leaves and functions with
a typed result fix it by their own types; kernels are told the promoted type and give a value of it,
whatever the types of the values that they are applied to (`Kernel.Typed`). So a kernel application
puts the types right by itself, even over operands whose elements do not have the reported type.

Such operands exist: a function with values of any type as its results hands on elements as they
come and reports the promoted type.
-/

namespace Broadcast

/-! ## Kernels -/

namespace Kernel

/-- A kernel that gives a value of the type it is asked for whenever it has all of its operands. -/
def Typed (k : Kernel) : Prop :=
  ∀ (d : DType) (args : List Value), k.arity ≤ args.length →
    ∃ v, k.apply args d = .ok v ∧ v.dtype = d

theorem typed_ofRule (name : String) (supports : DType → Bool)
    (rule : (d : DType) → Value → Value → d.Elem) : (ofRule name supports rule).Typed
  | d, a :: b :: _, _ => ⟨⟨d, rule d a b⟩, rfl, rfl⟩

theorem typed_select (name : String) (supports : DType → Bool) :
    (⟨name, 3, 1, supports, select⟩ : Kernel).Typed
  | d, condition :: a :: b :: rest, _ => by
    cases hc : condition.isTruthy with
    | true => exact ⟨a.cast d, by simp [select, hc], rfl⟩
    | false => exact ⟨b.cast d, by simp [select, hc], rfl⟩

theorem typed_ternary (name : String) (promoteFrom : Nat) (supports : DType → Bool)
    (rule : (d : DType) → Value → Value → Value → d.Elem) :
    (⟨name, 3, promoteFrom, supports, ternary rule⟩ : Kernel).Typed
  | d, a :: b :: c :: _, _ => ⟨⟨d, rule d a b c⟩, rfl, rfl⟩

theorem typed_of_mem_standard : ∀ k ∈ standard, k.Typed := by
  simp only [standard, List.forall_mem_cons, typed_ofRule, true_and]
  exact ⟨typed_select _ _, typed_ternary _ _ _ clipRule, fun k hk => absurd hk List.not_mem_nil⟩

end Kernel

/-! ## Applications -/

/-- Gathering gives one element for each operand that has a plan. -/
theorem Layout.length_of_gather {α : Type} {l : Layout} {args : List (Operand α)} {index : Index}
    {elements : List α} (h : l.gather args index = .ok elements) :
    elements.length = min args.length l.plans.length := by
  rw [← (mapM_eq_ok_iff.mp h).length_eq, List.length_zip]

namespace Application

variable {k : Kernel} {args : List (Operand Value)} {e : Application} {index : Index}

/-- Where all operands give an element, an application gives one of the type that it reports. -/
theorem read_of_gather (hk : k.Typed) (h : Application.of k args = .ok e) {elements : List Value}
    (hgather : e.layout.gather e.args index = .ok elements) :
    ∃ v, e.toOperand.read index = .ok v ∧ v.dtype = e.toOperand.dtype := by
  obtain ⟨harity, rfl, rfl, hlayout⟩ := of_eq_ok h
  have hplans : e.layout.plans.length = e.args.length := by
    rw [Layout.length_plans_of hlayout, List.length_map]
  have hlen : e.kernel.arity ≤ elements.length := by
    rw [Layout.length_of_gather hgather]
    omega
  obtain ⟨v, hv, hd⟩ := hk e.layout.dtype elements hlen
  refine ⟨v, ?_, hd⟩
  show (e.layout.gather e.args index >>= fun elements => e.kernel.apply elements e.layout.dtype) = _
  rw [hgather]
  exact hv

theorem typed (hk : k.Typed) (h : Application.of k args = .ok e) :
    e.toOperand.Typed e.toOperand.dtype := by
  refine ⟨rfl, ?_⟩
  intro index v hv
  obtain ⟨elements, hgather, _⟩ := bind_eq_ok_iff.mp hv
  obtain ⟨w, hw, hd⟩ := read_of_gather hk h hgather
  cases hv.symm.trans hw
  exact hd

end Application

/-! ## Trees -/

/-- An operand whose elements in bounds have the type that it reports. -/
def Operand.Tagged (x : Operand Value) : Prop :=
  ∀ index : Index, index.InBounds x.shape → ∀ v, x.read index = .ok v → v.dtype = x.dtype

theorem Operand.Typed.tagged {x : Operand Value} {d : DType} (h : x.Typed d) : x.Tagged :=
  fun _ _ _ hv => (h.dtype_read hv).trans h.dtype_eq.symm

namespace Expr

/--
The trees whose elements have the reported type: all leaves, all kernel applications, functions with
a typed result, and repetitions of these.
-/
def Tagged : Expr → Prop
  | .repeated source _ => source.Tagged
  | .pointwise fn _ => ∃ d, fn.result = .typed d
  | _ => True

theorem Tagged.typed : ∀ {e : Expr} {x : Operand Value}, e.Tagged →
    e.build Registry.standard = .ok x → ∃ d, x.Typed d
  | .scalar d _, _, _, h => ⟨d, typed_of_build rfl h⟩
  | .dense d _ _, _, _, h => ⟨d, typed_of_build rfl h⟩
  | .fill d _ _, _, _, h => ⟨d, typed_of_build rfl h⟩
  | .tabulate d _ _, _, _, h => ⟨d, typed_of_build rfl h⟩
  | .view d _, _, _, h => ⟨d, typed_of_build rfl h⟩
  | .repeated source times, x, he, h => by
    obtain ⟨y, hy, h⟩ := bind_eq_ok_iff.mp h
    obtain ⟨d, hd⟩ := Tagged.typed (e := source) he hy
    exact ⟨d, hd.repeated (liftM_fault_eq_ok_iff.mp h)⟩
  | .apply name args, x, _, h => by
    obtain ⟨xs, _, h⟩ := bind_eq_ok_iff.mp h
    obtain ⟨application, happlication, h⟩ := bind_eq_ok_iff.mp h
    cases h
    obtain ⟨k, hk, happlication⟩ := Registry.build_eq_ok happlication
    exact ⟨_, Application.typed
      (Kernel.typed_of_mem_standard k (Registry.mem_standard_of_get? hk)) happlication⟩
  | .pointwise fn args, x, ⟨d, hd⟩, h => ⟨d, typed_of_build (by simp [elemType?, hd]) h⟩

end Expr

/--
**Reported types are sound.** Each standard kernel, given at least as many values as it takes, gives
a value of the type it is asked for, whatever the types of the values. So an application over
operands that can be read gives an element of its reported type at every index in bounds, whatever
the types of their elements. In any tree over the standard kernels, elements have the reported type
at all leaves and applications, at functions with a typed result and at repetitions of these.
-/
theorem reported_types_sound :
    (∀ k ∈ Kernel.standard, ∀ (d : DType) (args : List Value), k.arity ≤ args.length →
      ∃ v, k.apply args d = .ok v ∧ v.dtype = d) ∧
    (∀ k ∈ Kernel.standard, ∀ (args : List (Operand Value)) (e : Application),
      Application.of k args = .ok e → (∀ x ∈ args, x.Readable) →
      ∀ index : Index, index.InBounds e.toOperand.shape →
        ∃ v, e.toOperand.read index = .ok v ∧ v.dtype = e.toOperand.dtype) ∧
    ∀ (e : Expr) (x : Operand Value), e.Tagged → e.build Registry.standard = .ok x →
      x.Tagged := by
  refine ⟨Kernel.typed_of_mem_standard, ?_, ?_⟩
  · intro k hk args e he hargs index hb
    obtain ⟨_, _, rfl, hlayout⟩ := Application.of_eq_ok he
    obtain ⟨elements, hgather, _⟩ := Layout.gather_eq_ok hlayout hargs hb
    exact Application.read_of_gather (Kernel.typed_of_mem_standard k hk) he hgather
  · intro e x he h
    obtain ⟨d, hd⟩ := he.typed h
    exact hd.tagged

/-- Small numbers handed on as they are, next to a number that makes the reported type wider. -/
def Expr.mislabelled : Expr :=
  .pointwise ⟨"first", [.any, .any], .any, fun p _ => p⟩
    [.dense (.int .w8) #[-1, 5] [2], .scalar (.uint .w8) 200]

/-- A sum over operands whose elements do not have the reported type, and each element twice. -/
def Expr.relabelled : Expr :=
  .repeated (.apply "add" [.mislabelled, .scalar (.uint .w8) 7]) 2

theorem reported_types_sound_relabelled :
    (∃ x v, Expr.mislabelled.build Registry.standard = .ok x ∧ x.read [0] = .ok v ∧
      x.dtype = .int .w16 ∧ v.dtype = .int .w8) ∧
    ∃ x v, Expr.relabelled.build Registry.standard = .ok x ∧ x.read [1] = .ok v ∧
      x.dtype = .int .w16 ∧ v.dtype = x.dtype :=
  ⟨⟨_, _, rfl, rfl, rfl, rfl⟩,
    _, _, rfl, rfl, rfl, reported_types_sound.2.2 Expr.relabelled _ trivial rfl [1] (by decide) _ rfl⟩

end Broadcast
