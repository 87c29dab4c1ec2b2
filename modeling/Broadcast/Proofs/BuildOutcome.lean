import Broadcast.Proofs.RegistryRuns
import Broadcast.Proofs.Projection

/-!
# What building by name comes to

Building an application by name can go wrong in four ways, and they are judged in a fixed order: the
name, the number of operands, their shapes, their promoted type. The shapes of all operands count,
the types only of those that take part in promotion. `BuildOutcome` lists the four and the success,
each with the conditions under which it is the first that applies, and `build_outcome` says that a
registry gives just that.

Another check, that the number of operands is two to four, comes between the second and the third. It
is for kernels that no registry holds: those it holds have passed it when they were registered.
-/

namespace Broadcast

/-- The promoted type of the operands of a kernel that count for it. -/
def Kernel.resultType (k : Kernel) (args : List (Operand Value)) : DType :=
  .promoteAll ((args.drop k.promoteFrom).map (·.dtype))

/-! ## A kernel and its operands -/

namespace Application

variable {k : Kernel} {args : List (Operand Value)}

theorem of_of_conflict (hcount : args.length = k.arity) (h : 2 ≤ k.arity ∧ k.arity ≤ 4)
    {c : Conflict} (hshape : Shape.broadcast (args.map (·.shape)) = .error c) :
    Application.of k args = .error (.incompatibleShape c) := by
  rw [of_eq_layout hcount h, Layout.of, hshape]
  rfl

theorem of_of_common (hcount : args.length = k.arity) (h : 2 ≤ k.arity ∧ k.arity ≤ 4)
    {out : Shape} (hshape : Shape.broadcast (args.map (·.shape)) = .ok out) :
    Application.of k args =
      if k.supports (k.resultType args) then
        .ok ⟨k, args, ⟨out, k.resultType args, args.map fun x => Plan.align x.shape out.rank⟩⟩
      else .error (.unsupportedDType k.name (k.resultType args)) := by
  rw [of_eq_layout hcount h, Layout.of, hshape]
  simp [bind, Except.bind, pure, Except.pure, Kernel.resultType, Function.comp_def]

end Application

/-- Every operand has a plan for the common shape. -/
theorem mapM_plan_of {args : List (Operand Value)} {out : Shape}
    (hshape : Shape.broadcast (args.map (·.shape)) = .ok out) :
    args.mapM (fun x => Plan.of x.shape out.rank)
      = .ok (args.map fun x => Plan.align x.shape out.rank) := by
  refine mapM_eq_ok_iff.mpr (List.forall₂_map_right_iff.mpr (List.forall₂_same.mpr fun x hx => ?_))
  have hle : x.shape.length ≤ out.rank :=
    Shape.length_le_of_broadcast hshape (List.mem_map_of_mem hx)
  rw [Plan.of, if_pos hle]

/-! ## Outcomes -/

namespace Registry

/-- The outcomes of building an application by name, each with the conditions that lead to it. -/
inductive BuildOutcome (r : Registry) (name : String) (args : List (Operand Value)) :
    Except Error Application → Prop where
  | unknown (hname : r.get? name = none) :
    BuildOutcome r name args (.error (.unknownOperation name))
  | wrongCount {k : Kernel} (hname : r.get? name = some k) (hcount : args.length ≠ k.arity) :
    BuildOutcome r name args (.error (.arityMismatch name k.arity args.length))
  /-- The shapes of all operands are joined, also of those that are left out of promotion. -/
  | incompatible {k : Kernel} {c : Conflict} (hname : r.get? name = some k)
    (hcount : args.length = k.arity)
    (hshape : Shape.broadcast (args.map (·.shape)) = .error c) :
    BuildOutcome r name args (.error (.incompatibleShape c))
  | unsupported {k : Kernel} {out : Shape} (hname : r.get? name = some k)
    (hcount : args.length = k.arity)
    (hshape : Shape.broadcast (args.map (·.shape)) = .ok out)
    (hdtype : k.supports (k.resultType args) = false) :
    BuildOutcome r name args (.error (.unsupportedDType name (k.resultType args)))
  | built {k : Kernel} {out : Shape} {plans : List Plan} (hname : r.get? name = some k)
    (hcount : args.length = k.arity)
    (hshape : Shape.broadcast (args.map (·.shape)) = .ok out)
    (hdtype : k.supports (k.resultType args) = true)
    (hplans : args.mapM (fun x => Plan.of x.shape out.rank) = .ok plans) :
    BuildOutcome r name args (.ok ⟨k, args, ⟨out, k.resultType args, plans⟩⟩)

variable {r : Registry} {name : String} {args : List (Operand Value)}

theorem exists_buildOutcome (r : Registry) (name : String) (args : List (Operand Value)) :
    ∃ result, BuildOutcome r name args result := by
  cases hname : r.get? name with
  | none => exact ⟨_, .unknown hname⟩
  | some k =>
    by_cases hcount : args.length = k.arity
    · cases hshape : Shape.broadcast (args.map (·.shape)) with
      | error c => exact ⟨_, .incompatible hname hcount hshape⟩
      | ok out =>
        cases hdtype : k.supports (k.resultType args) with
        | false => exact ⟨_, .unsupported hname hcount hshape hdtype⟩
        | true => exact ⟨_, .built hname hcount hshape hdtype (mapM_plan_of hshape)⟩
    · exact ⟨_, .wrongCount hname hcount⟩

/-- Each outcome is what building gives under its conditions. -/
theorem build_of_outcome (hr : r.Reachable) {result : Except Error Application}
    (h : BuildOutcome r name args result) : r.build name args = result := by
  cases h with
  | unknown hname => rw [build, hname]
  | wrongCount hname hcount =>
    rw [build_of_get? hname, Application.of_of_length_ne hcount, (hr.registrable hname).2]
  | incompatible hname hcount hshape =>
    rw [build_of_get? hname, Application.of_of_conflict hcount (hr.registrable hname).1.1 hshape]
  | unsupported hname hcount hshape hdtype =>
    obtain ⟨⟨harity, _⟩, hkname⟩ := hr.registrable hname
    rw [build_of_get? hname, Application.of_of_common hcount harity hshape, hdtype, hkname]
    rfl
  | built hname hcount hshape hdtype hplans =>
    rw [mapM_plan_of hshape] at hplans
    cases hplans
    rw [build_of_get? hname, Application.of_of_common hcount (hr.registrable hname).1.1 hshape,
      hdtype]
    rfl

/--
**What building by name comes to.** On any registry that calls to register kernels have led to,
building gives the outcome whose conditions hold: the name is unknown, the number of operands is
wrong, the shapes of all operands have a conflict, the promoted type of those that count is not
supported, or the application is built, with the common shape, that type and a plan for each operand.
The number of operands that a registered kernel takes never falls out of the accepted range, so
whenever it is reported as wrong, it differs from the kernel's. A kernel with a number out of that
range, applied without a registry, is always refused: for its own number, or if that is the number of
operands, for the nearest that is accepted.
-/
theorem build_outcome {r : Registry} (hr : r.Reachable) (name : String)
    (args : List (Operand Value)) :
    (∀ result, r.build name args = result ↔ BuildOutcome r name args result) ∧
    (∀ k, r.get? name = some k → args.length = k.arity →
      2 ≤ args.length ∧ args.length ≤ 4) ∧
    (∀ op expected found, r.build name args = .error (.arityMismatch op expected found) →
      ∃ k, r.get? name = some k ∧ op = name ∧ expected = k.arity ∧ found = args.length ∧
        found ≠ k.arity) ∧
    ∀ k : Kernel, ¬ (2 ≤ k.arity ∧ k.arity ≤ 4) →
      Application.of k args = .error (.arityMismatch k.name
        (if args.length = k.arity then max 2 (min args.length 4) else k.arity) args.length) := by
  obtain ⟨result, hresult⟩ := exists_buildOutcome r name args
  have hbuild := build_of_outcome hr hresult
  refine ⟨?_, ?_, ?_, ?_⟩
  · intro other
    refine ⟨?_, build_of_outcome hr⟩
    rintro rfl
    exact hbuild ▸ hresult
  · intro k hk hcount
    rw [hcount]
    exact (hr.registrable hk).1.1
  · intro op expected found herror
    rw [hbuild] at herror
    subst herror
    cases hresult with
    | wrongCount hname hcount => exact ⟨_, hname, rfl, rfl, rfl, hcount⟩
  · intro k hk
    split
    · next hcount => exact Application.of_of_not_accepted hcount hk
    · next hcount => exact Application.of_of_length_ne hcount

end Registry

/-- A column of numbers as an operand. -/
def Operand.column (data : Array (BitVec 8)) : Operand Value :=
  ((⟨[data.size, 1], data⟩ : Dense (DType.uint .w8).Elem).toOperand (.uint .w8)).map (Value.mk _)

/-- A function of one operand, which no registry takes. -/
def Kernel.identity : Kernel :=
  ⟨"identity", 1, 0, fun _ => true, Kernel.first⟩

/-- The condition of a selection is not promoted, and its shape counts all the same. -/
theorem Registry.build_outcome_where :
    standard.build "where" [.column #[1, 0, 1], .column #[5, 6], .scalar .bool ⟨.bool, true⟩]
        = .error (.incompatibleShape ⟨0, 3, 2⟩) ∧
      Application.of .identity [.column #[1, 0]] = .error (.arityMismatch "identity" 2 1) := by
  obtain ⟨hbuild, _⟩ := build_outcome reachable_standard "where"
    [.column #[1, 0, 1], .column #[5, 6], .scalar .bool ⟨.bool, true⟩]
  obtain ⟨_, _, _, hdirect⟩ := build_outcome reachable_standard "where" [.column #[1, 0]]
  exact ⟨(hbuild _).mpr (.incompatible rfl rfl rfl), hdirect .identity (by decide)⟩

end Broadcast
