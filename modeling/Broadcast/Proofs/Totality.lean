import Broadcast.Expr
import Broadcast.Proofs.AxisOrder
import Broadcast.Proofs.Building
import Broadcast.Proofs.Projection
import Broadcast.Proofs.Storage

/-!
# Trees can be read

No node of a tree checks the index that it is given; each only rewrites it for its operands. What
keeps every read inside its bounds is one property, `Readable`, which every leaf has and every node
hands on: the operand gives an element at every index in bounds.

* leaves — dense arrays are full and views are inside their data
* `Readable.repeated`, `Nary.readable`, `Application.readable` — the three kinds of node
* `tree_readable` — all trees over the standard kernels
-/

namespace Broadcast

/-! ## Readable operands -/

namespace Operand

variable {α β : Type}

/-- An operand that gives an element at every index in bounds. -/
def Readable (x : Operand α) : Prop :=
  ∀ index : Index, index.InBounds x.shape → ∃ v, x.read index = .ok v

theorem Readable.map {x : Operand α} (hx : x.Readable) (f : α → β) : (x.map f).Readable := by
  intro index hb
  obtain ⟨v, hv⟩ := hx index hb
  refine ⟨f v, ?_⟩
  rw [read_map, hv]
  rfl

theorem readable_scalar (d : DType) (x : α) : (scalar d x).Readable :=
  fun _ _ => ⟨x, rfl⟩

theorem Readable.repeated {x y : Operand α} {times : Nat} (hx : x.Readable)
    (h : x.repeated times = .ok y) : y.Readable := by
  obtain ⟨count, hcount, h⟩ := bind_eq_ok_iff.mp h
  obtain ⟨length, hlength, h⟩ := bind_eq_ok_iff.mp h
  obtain ⟨_, rfl⟩ := Word.unsigned_eq_ok_iff.mp hlength
  cases h
  rintro (_ | ⟨i, rest⟩) hb
  · exact absurd hb id
  · obtain ⟨own, _, hown, hread⟩ := readRepeated_eq hcount hb.1
    obtain ⟨v, hv⟩ := hx own hown
    exact ⟨v, by rw [← hv]; exact hread rest⟩

end Operand

theorem Dense.Full.readable {α : Type} {a : Dense α} (ha : a.Full) (d : DType) :
    (a.toOperand d).Readable := by
  intro index hb
  obtain ⟨x, _, hread⟩ := ha.read_eq hb
  exact ⟨x, hread⟩

theorem View.Inside.readable {α : Type} {v : View α} (hv : v.Inside) (d : DType) :
    (v.toOperand d).Readable := by
  intro index hb
  obtain ⟨x, _, hread⟩ := hv.read_eq hb
  exact ⟨x, hread⟩

/-- Readable operands give one element each to every index of their layout. -/
theorem Layout.gather_eq_ok {α : Type} {args : List (Operand α)} {types : List DType} {l : Layout}
    (h : Layout.of (args.map (·.shape)) types = .ok l) (hargs : ∀ x ∈ args, x.Readable)
    {index : Index} (hb : index.InBounds l.shape) :
    ∃ elements, l.gather args index = .ok elements ∧ elements.length = args.length := by
  have hall : ∀ x ∈ args, ∃ v,
      x.read ((Plan.align x.shape l.shape.rank).project index) = .ok v :=
    fun x hx => hargs x hx _ (project_operand_inBounds h hb hx)
  obtain ⟨elements, helements⟩ := exists_mapM_eq_ok hall
  refine ⟨elements, ?_, (mapM_eq_ok_iff.mp helements).length_eq.symm⟩
  rw [gather_eq_mapM h hb, helements]

/-! ## Pointwise functions -/

theorem Curried.apply_eq_ok {β : Type} : ∀ {ps : List Param} (f : Curried ps β) {args : List Value},
    args.length = ps.length → ∃ result, Curried.apply ps f args = .ok result
  | [], f, _, _ => ⟨f, rfl⟩
  | p :: _, f, v :: _, h => apply_eq_ok (f (p.ofValue v)) (Nat.succ.inj h)

theorem Nary.readable {fn : Pointwise} {args : List (Operand Value)} {e : Nary}
    (h : Nary.of fn args = .ok e) (hargs : ∀ x ∈ args, x.Readable) : e.toOperand.Readable := by
  obtain ⟨harity, hfn, rfl, hlayout⟩ := Nary.of_eq_ok h
  intro index hb
  obtain ⟨elements, hgather, hlen⟩ := Layout.gather_eq_ok hlayout hargs hb
  rw [← hlen, ← hfn] at harity
  obtain ⟨result, hresult⟩ := Curried.apply_eq_ok e.fn.fn harity
  refine ⟨e.fn.result.toValue result, ?_⟩
  show (e.layout.gather e.args index >>= e.fn.apply) = _
  rw [hgather]
  show e.fn.result.toValue <$> Curried.apply e.fn.params e.fn.fn elements = _
  rw [hresult]
  rfl

/-! ## Kernels -/

namespace Kernel

theorem binary_eq_ok (rule : (d : DType) → Value → Value → d.Elem) (d : DType) :
    ∀ {args : List Value}, args.length = 2 → ∃ v, binary rule args d = .ok v
  | [a, b], _ => ⟨⟨d, rule d a b⟩, rfl⟩

theorem ternary_eq_ok (rule : (d : DType) → Value → Value → Value → d.Elem) (d : DType) :
    ∀ {args : List Value}, args.length = 3 → ∃ v, ternary rule args d = .ok v
  | [a, b, c], _ => ⟨⟨d, rule d a b c⟩, rfl⟩

theorem select_eq_ok (d : DType) :
    ∀ {args : List Value}, args.length = 3 → ∃ v, select args d = .ok v
  | [condition, a, b], _ => by
    cases hc : condition.isTruthy with
    | true => exact ⟨a.cast d, by simp [select, hc]⟩
    | false => exact ⟨b.cast d, by simp [select, hc]⟩

/-- A kernel that gives a value for as many operands as it takes, whatever the result type. -/
def Total (k : Kernel) : Prop :=
  ∀ (d : DType) (args : List Value), args.length = k.arity → ∃ v, k.apply args d = .ok v

theorem total_ofRule (name : String) (supports : DType → Bool)
    (rule : (d : DType) → Value → Value → d.Elem) : (ofRule name supports rule).Total :=
  fun d _ h => binary_eq_ok rule d h

theorem total_of_mem_standard : ∀ k ∈ standard, k.Total := by
  -- All but the last two kernels are rules for two values.
  simp only [standard, List.forall_mem_cons, total_ofRule, true_and]
  exact ⟨fun d _ h => select_eq_ok d h, fun d _ h => ternary_eq_ok clipRule d h,
    fun k hk => absurd hk List.not_mem_nil⟩

end Kernel

theorem Application.readable {k : Kernel} {args : List (Operand Value)} {e : Application}
    (hk : k.Total) (h : Application.of k args = .ok e)
    (hargs : ∀ x ∈ args, x.Readable) : e.toOperand.Readable := by
  obtain ⟨harity, rfl, rfl, hlayout⟩ := Application.of_eq_ok h
  intro index hb
  obtain ⟨elements, hgather, hlen⟩ := Layout.gather_eq_ok hlayout hargs hb
  obtain ⟨v, hv⟩ := hk e.layout.dtype elements (hlen.trans harity)
  refine ⟨v, ?_⟩
  show (e.layout.gather e.args index >>= fun elements => e.kernel.apply elements e.layout.dtype) = _
  rw [hgather]
  exact hv

/-! ## Trees -/

/-- The data and the placement of a view that fit machine words; views of all data need no more. -/
structure ViewSpec.Fits {α : Type} (spec : ViewSpec α) : Prop where
  size_lt : spec.data.size < Word.half
  placed : ∀ strides offset, spec.placement = some (strides, offset) →
    (∀ n ∈ spec.dims, n ≤ Word.half) ∧ offset < Word.size

theorem View.Inside.foldlM_permute {α : Type} : ∀ {orders : List (List Nat)} {v w : View α},
    v.Inside → orders.foldlM (fun v order => (liftM (v.permute order) : Except Error _)) v = .ok w →
    w.Inside
  | [], v, w, hv, h => by
    cases h
    exact hv
  | order :: orders, v, w, hv, h => by
    rw [List.foldlM_cons] at h
    obtain ⟨next, hnext, h⟩ := bind_eq_ok_iff.mp h
    exact foldlM_permute (hv.permute (liftM_fault_eq_ok_iff.mp hnext)) h

theorem ViewSpec.Fits.inside {α : Type} {spec : ViewSpec α} (hs : spec.Fits) {v : View α}
    (h : spec.build = .ok v) : v.Inside := by
  unfold ViewSpec.build at h
  split at h
  · obtain ⟨start, hstart, h⟩ := bind_eq_ok_iff.mp h
    exact View.Inside.foldlM_permute (View.inside_of_contiguous hs.size_lt hstart) h
  · next strides offset hplacement =>
    obtain ⟨start, hstart, h⟩ := bind_eq_ok_iff.mp h
    obtain ⟨hdims, hoffset⟩ := hs.placed strides offset hplacement
    have hin := ((View.new_eq_ok_iff hs.size_lt (fun _ => hdims) hoffset).mp hstart).2
    exact View.Inside.foldlM_permute hin h

namespace Expr

/-- The trees whose views fit machine words. -/
inductive Fits : Expr → Prop where
  | scalar (d : DType) (x : d.Elem) : Fits (.scalar d x)
  | dense (d : DType) (data : Array d.Elem) (dims : Shape) : Fits (.dense d data dims)
  | fill (d : DType) (x : d.Elem) (dims : Shape) : Fits (.fill d x dims)
  | tabulate (d : DType) (dims : Shape) (f : Index → d.Elem) : Fits (.tabulate d dims f)
  | view (d : DType) {spec : ViewSpec d.Elem} (h : spec.Fits) : Fits (.view d spec)
  | repeated {source : Expr} (h : Fits source) (times : Nat) : Fits (.repeated source times)
  | apply (name : String) {args : List Expr} (h : ∀ e ∈ args, Fits e) : Fits (.apply name args)
  | pointwise (fn : Pointwise) {args : List Expr} (h : ∀ e ∈ args, Fits e) :
    Fits (.pointwise fn args)

/--
**Every tree can be read.** If a tree over the standard kernels whose views fit machine words
builds, then reading it gives an element at every index in bounds: nothing on the way down to any
leaf is out of bounds, divides by zero or leaves a machine word.
-/
theorem tree_readable {e : Expr} (hfit : e.Fits) {x : Operand Value}
    (h : e.build Registry.standard = .ok x) {index : Index} (hb : index.InBounds x.shape) :
    ∃ v, x.read index = .ok v := by
  -- Nodes read their operands at other indices, so the induction is about all of them.
  suffices hx : x.Readable from hx index hb
  clear hb
  induction hfit generalizing x with
  | scalar d v =>
    cases h
    exact Operand.readable_scalar d _
  | dense d data dims =>
    obtain ⟨a, ha, h⟩ := bind_eq_ok_iff.mp h
    cases h
    exact ((Dense.full_of_ofArray ha).readable d).map _
  | fill d v dims =>
    obtain ⟨a, ha, h⟩ := bind_eq_ok_iff.mp h
    cases h
    exact ((Dense.full_of_fill (liftM_fault_eq_ok_iff.mp ha)).readable d).map _
  | tabulate d dims f =>
    obtain ⟨a, ha, h⟩ := bind_eq_ok_iff.mp h
    cases h
    exact ((Dense.full_of_ofFn (liftM_fault_eq_ok_iff.mp ha)).readable d).map _
  | view d hspec =>
    obtain ⟨v, hv, h⟩ := bind_eq_ok_iff.mp h
    cases h
    exact ((hspec.inside hv).readable d).map _
  | repeated _ times ih =>
    obtain ⟨y, hy, h⟩ := bind_eq_ok_iff.mp h
    exact (ih hy).repeated (liftM_fault_eq_ok_iff.mp h)
  | apply name _ ih =>
    obtain ⟨xs, hxs, h⟩ := bind_eq_ok_iff.mp h
    obtain ⟨application, happlication, h⟩ := bind_eq_ok_iff.mp h
    cases h
    rw [buildAll_eq_mapM] at hxs
    obtain ⟨k, hk, happlication⟩ := Registry.build_eq_ok happlication
    exact Application.readable (Kernel.total_of_mem_standard k (Registry.mem_standard_of_get? hk))
      happlication (forall_mem_of_mapM hxs fun e he _ hx => ih e he hx)
  | pointwise fn _ ih =>
    obtain ⟨xs, hxs, h⟩ := bind_eq_ok_iff.mp h
    obtain ⟨nary, hnary, h⟩ := bind_eq_ok_iff.mp h
    cases h
    rw [buildAll_eq_mapM] at hxs
    exact Nary.readable hnary (forall_mem_of_mapM hxs fun e he _ hx => ih e he hx)

/-- A repetition added to a transposed view of four rows of two, the last row first. -/
def reversedSum : Expr :=
  .apply "add" [
    .repeated (.dense (.int .w32) #[1, 2] [2]) 2,
    .view (.int .w32) ⟨#[1, 2, 3, 4, 5, 6, 7, 8], [4, 2], some ([-2, 1], 6), [[1, 0]]⟩]

theorem tree_readable_reversedSum :
    ∃ x, reversedSum.build Registry.standard = .ok x ∧ x.shape = [2, 4] ∧
      ∃ v, x.read [1, 3] = .ok v := by
  have hview : ViewSpec.Fits (α := (DType.int .w32).Elem)
      ⟨#[1, 2, 3, 4, 5, 6, 7, 8], [4, 2], some ([-2, 1], 6), [[1, 0]]⟩ := by
    refine ⟨by decide, ?_⟩
    rintro strides offset ⟨⟩
    exact ⟨by decide, by decide⟩
  have hfit : reversedSum.Fits := by
    refine .apply "add" (List.forall_mem_cons.mpr ⟨?_, List.forall_mem_singleton.mpr ?_⟩)
    · exact .repeated (.dense _ _ _) 2
    · exact .view _ hview
  exact ⟨_, rfl, rfl, tree_readable hfit rfl (by decide)⟩

end Expr

end Broadcast
