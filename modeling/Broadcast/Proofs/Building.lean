import Broadcast.Expr
import Broadcast.Proofs.Outcome

/-!
# What building checks and keeps

Building checks the number of operands, their shapes and their promoted type, and keeps what it
found in the layout of the node. The lemmas here say what comes of each check and read the facts back
from a node that was built, so that no other proof opens a builder. A registry is the list of kernels
put into it, the last of a name winning.
-/

namespace Broadcast

/-! ## Pointwise expressions -/

theorem Nary.of_eq_ok {fn : Pointwise} {args : List (Operand Value)} {e : Nary}
    (h : Nary.of fn args = .ok e) :
    args.length = fn.arity ∧ e.fn = fn ∧ e.args = args ∧
      Layout.of (args.map (·.shape)) (args.map (·.dtype)) = .ok e.layout := by
  unfold Nary.of at h
  split at h
  · cases h
  · next harity =>
    obtain ⟨layout, hlayout, h⟩ := bind_eq_ok_iff.mp h
    cases h
    exact ⟨Decidable.not_not.mp harity, rfl, rfl, liftM_conflict_eq_ok_iff.mp hlayout⟩

/-- A pointwise expression is built from as many operands as needed, if they have a common shape. -/
theorem Nary.exists_of_iff {fn : Pointwise} {args : List (Operand Value)} :
    (∃ e, Nary.of fn args = .ok e) ↔
      args.length = fn.arity ∧ ∃ out, Shape.broadcast (args.map (·.shape)) = .ok out := by
  constructor
  · rintro ⟨e, he⟩
    obtain ⟨harity, _, _, hlayout⟩ := Nary.of_eq_ok he
    obtain ⟨out, hout, _⟩ := bind_eq_ok_iff.mp hlayout
    exact ⟨harity, out, hout⟩
  · rintro ⟨harity, out, hout⟩
    have hlayout : ∃ l, Layout.of (args.map (·.shape)) (args.map (·.dtype)) = .ok l :=
      ⟨_, bind_eq_ok_iff.mpr ⟨out, hout, rfl⟩⟩
    obtain ⟨l, hl⟩ := hlayout
    refine ⟨⟨fn, args, l⟩, ?_⟩
    rw [Nary.of, if_neg (fun hne => hne harity)]
    exact bind_eq_ok_iff.mpr ⟨l, liftM_conflict_eq_ok_iff.mpr hl, rfl⟩

/-! ## Kernel applications -/

theorem Kernel.acceptsArity_iff {n : Nat} : Kernel.acceptsArity n ↔ 2 ≤ n ∧ n ≤ 4 := by
  rw [acceptsArity, Bool.and_eq_true, decide_eq_true_iff, decide_eq_true_iff]
  exact Iff.rfl

namespace Application

variable {k : Kernel} {args : List (Operand Value)}

theorem of_of_length_ne (h : args.length ≠ k.arity) :
    Application.of k args = .error (.arityMismatch k.name k.arity args.length) := by
  simp [Application.of, h]

theorem of_of_not_accepted (hcount : args.length = k.arity) (h : ¬ (2 ≤ k.arity ∧ k.arity ≤ 4)) :
    Application.of k args
      = .error (.arityMismatch k.name (max 2 (min args.length 4)) args.length) := by
  have haccepts : ¬ Kernel.acceptsArity k.arity := mt Kernel.acceptsArity_iff.mp h
  simp [Application.of, hcount, haccepts, Kernel.clampArity, Kernel.minArity, Kernel.maxArity]

/-- With an accepted number of operands, the rest is up to their layout. -/
theorem of_eq_layout (hcount : args.length = k.arity) (h : 2 ≤ k.arity ∧ k.arity ≤ 4) :
    Application.of k args = (liftM (Layout.of (args.map (·.shape))
      ((args.drop k.promoteFrom).map (·.dtype))) : Except Error Layout) >>= fun layout =>
        if k.supports layout.dtype then .ok ⟨k, args, layout⟩
        else .error (.unsupportedDType k.name layout.dtype) := by
  have haccepts : Kernel.acceptsArity args.length = true :=
    Kernel.acceptsArity_iff.mpr (hcount ▸ h)
  rw [Application.of, if_neg (fun hne => hne hcount), haccepts]
  rfl

theorem of_eq_ok {e : Application} (h : Application.of k args = .ok e) :
    args.length = k.arity ∧ e.kernel = k ∧ e.args = args ∧
      Layout.of (args.map (·.shape)) ((args.drop k.promoteFrom).map (·.dtype)) = .ok e.layout := by
  unfold Application.of at h
  split at h
  · cases h
  · next harity =>
    split at h
    · cases h
    · obtain ⟨layout, hlayout, h⟩ := bind_eq_ok_iff.mp h
      split at h
      · cases h
        exact ⟨Decidable.not_not.mp harity, rfl, rfl, liftM_conflict_eq_ok_iff.mp hlayout⟩
      · cases h

end Application

/-! ## Registries -/

namespace Registry

/-- No standard kernel is refused or replaced by another one: the registry holds them all. -/
theorem kernels_standard : standard.kernels = Kernel.standard := rfl

theorem get?_standard (name : String) : standard.get? name = Kernel.standard? name := by
  rw [get?, kernels_standard, Kernel.standard?]

theorem mem_standard_of_get? {name : String} {k : Kernel} (h : standard.get? name = some k) :
    k ∈ Kernel.standard := by
  rw [get?_standard] at h
  exact List.mem_of_find?_eq_some h

theorem build_of_get? {r : Registry} {name : String} {args : List (Operand Value)} {k : Kernel}
    (hname : r.get? name = some k) : r.build name args = Application.of k args := by
  rw [build, hname]

theorem build_eq_ok {r : Registry} {name : String} {args : List (Operand Value)} {e : Application}
    (h : r.build name args = .ok e) :
    ∃ k, r.get? name = some k ∧ Application.of k args = .ok e := by
  unfold build at h
  split at h
  · next k hk => exact ⟨k, hk, h⟩
  · cases h

end Registry

/-! ## Trees -/

theorem Expr.buildAll_eq_mapM (r : Registry) : ∀ args : List Expr,
    Expr.buildAll r args = args.mapM (Expr.build r)
  | [] => by rw [buildAll, List.mapM_nil]; rfl
  | e :: args => by
    rw [buildAll, buildAll_eq_mapM r args, List.mapM_cons]

end Broadcast
