import Broadcast.Proofs.Building
import Broadcast.Proofs.Evaluators
import Broadcast.Proofs.Totality

/-!
# Replacing a subtree by its elements

Evaluating a subtree early changes nothing that a tree shows. Two operands agree (`Agrees`) if they
have the same shape, report the same type and read the same at every index in bounds. Every node is
a congruence for agreement: built over operands that agree, it fails with the same error or gives
operands that agree, since it reads its operands in bounds only. So agreement passes through any
`Context`, and what is left is that a subtree agrees with the array of its elements.

The elements of the subtree must have one fixed type, which `elemType?` reads off the tree; a kernel
application and a function with values of any type as its results have none.
-/

namespace Broadcast

/-! ## Operands that agree -/

namespace Operand

variable {α : Type}

/-- Two operands that cannot be told apart by their shape, their type and reads in bounds. -/
structure Agrees (x y : Operand α) : Prop where
  shape_eq : x.shape = y.shape
  dtype_eq : x.dtype = y.dtype
  read_eq : ∀ index : Index, index.InBounds x.shape → x.read index = y.read index

theorem Agrees.refl (x : Operand α) : x.Agrees x :=
  ⟨rfl, rfl, fun _ _ => rfl⟩

theorem map_shape_eq {xs ys : List (Operand α)} (h : List.Forall₂ Agrees xs ys) :
    xs.map (·.shape) = ys.map (·.shape) := by
  induction h with
  | nil => rfl
  | cons hxy _ ih => rw [List.map_cons, List.map_cons, hxy.shape_eq, ih]

theorem map_dtype_eq {xs ys : List (Operand α)} (h : List.Forall₂ Agrees xs ys) :
    xs.map (·.dtype) = ys.map (·.dtype) := by
  induction h with
  | nil => rfl
  | cons hxy _ ih => rw [List.map_cons, List.map_cons, hxy.dtype_eq, ih]

/-- Repetitions of operands that agree end alike. -/
theorem repeated_congr {x y : Operand α} (h : x.Agrees y) (times : Nat) :
    SameOutcome Agrees (x.repeated times) (y.repeated times) := by
  have hnumel : y.numel = x.numel := by rw [numel, numel, h.shape_eq]
  cases hcount : x.numel with
  | error fault =>
    rw [repeated, repeated, hnumel, hcount]
    exact rfl
  | ok count =>
    rw [hcount] at hnumel
    rw [repeated, repeated, hnumel, hcount]
    show SameOutcome Agrees (Word.unsigned (count * times) >>= fun _ => _)
      (Word.unsigned (count * times) >>= fun _ => _)
    cases hlength : Word.unsigned (count * times) with
    | error fault => exact rfl
    | ok length =>
      obtain ⟨_, rfl⟩ := Word.unsigned_eq_ok_iff.mp hlength
      refine ⟨rfl, h.dtype_eq, ?_⟩
      rintro (_ | ⟨i, rest⟩) hb
      · exact absurd hb id
      · obtain ⟨own, hown, hin, hx⟩ := readRepeated_eq hcount hb.1
        obtain ⟨own', hown', _, hy⟩ := readRepeated_eq hnumel hb.1
        -- Operands of one shape unravel the component to one index.
        rw [← h.shape_eq, hown] at hown'
        cases hown'
        show x.readRepeated times (i :: rest) = y.readRepeated times (i :: rest)
        rw [hx, hy, h.read_eq own hin]

/-- Operands that agree give the same elements to every index of their layout. -/
theorem gather_congr {xs ys : List (Operand α)} (h : List.Forall₂ Agrees xs ys)
    {types : List DType} {l : Layout} (hl : Layout.of (xs.map (·.shape)) types = .ok l)
    {index : Index} (hb : index.InBounds l.shape) : l.gather xs index = l.gather ys index := by
  have hl' : Layout.of (ys.map (·.shape)) types = .ok l := by
    rw [← map_shape_eq h]
    exact hl
  rw [Layout.gather_eq_mapM hl hb, Layout.gather_eq_mapM hl' hb]
  refine mapM_congr_of_forall₂ ?_
  -- The operands agree only where they are read in bounds, so membership is kept along.
  have hmem := (List.forall₂_and_left xs ys).mpr ⟨fun x hx => hx, h⟩
  refine hmem.imp ?_
  rintro x y ⟨hx, hxy⟩
  rw [← hxy.shape_eq]
  exact hxy.read_eq _ (Layout.project_operand_inBounds hl hb hx)

end Operand

/-! ## Nodes over operands that agree -/

open Operand (Agrees)

theorem Nary.of_congr (fn : Pointwise) {xs ys : List (Operand Value)}
    (h : List.Forall₂ Agrees xs ys) :
    SameOutcome (fun e e' => Agrees e.toOperand e'.toOperand) (Nary.of fn xs) (Nary.of fn ys) := by
  unfold Nary.of
  rw [← h.length_eq, ← Operand.map_shape_eq h, ← Operand.map_dtype_eq h]
  split
  · exact rfl
  · cases hl : Layout.of (xs.map (·.shape)) (xs.map (·.dtype)) with
    | error conflict => exact rfl
    | ok l =>
      refine ⟨rfl, rfl, ?_⟩
      intro index hb
      show (l.gather xs index >>= fn.apply) = (l.gather ys index >>= fn.apply)
      rw [Operand.gather_congr h hl hb]

theorem Application.of_congr (k : Kernel) {xs ys : List (Operand Value)}
    (h : List.Forall₂ Agrees xs ys) :
    SameOutcome (fun e e' => Agrees e.toOperand e'.toOperand)
      (Application.of k xs) (Application.of k ys) := by
  unfold Application.of
  rw [← h.length_eq, ← Operand.map_shape_eq h,
    ← Operand.map_dtype_eq (List.forall₂_drop k.promoteFrom h)]
  split
  · exact rfl
  · split
    · exact rfl
    · cases hl : Layout.of (xs.map (·.shape)) ((xs.drop k.promoteFrom).map (·.dtype)) with
      | error conflict => exact rfl
      | ok l =>
        show SameOutcome _ (if k.supports l.dtype then _ else _)
          (if k.supports l.dtype then _ else _)
        split
        · refine ⟨rfl, rfl, ?_⟩
          intro index hb
          show (l.gather xs index >>= _) = (l.gather ys index >>= _)
          rw [Operand.gather_congr h hl hb]
        · exact rfl

theorem Registry.build_congr (r : Registry) (name : String) {xs ys : List (Operand Value)}
    (h : List.Forall₂ Agrees xs ys) :
    SameOutcome (fun e e' => Agrees e.toOperand e'.toOperand)
      (r.build name xs) (r.build name ys) := by
  unfold Registry.build
  split
  · exact Application.of_congr _ h
  · exact rfl

/-! ## Contexts -/

/-- A tree with one subtree left out. -/
inductive Context where
  | hole
  | repeated (inner : Context) (times : Nat)
  | apply (name : String) (before : List Expr) (inner : Context) (after : List Expr)
  | pointwise (fn : Pointwise) (before : List Expr) (inner : Context) (after : List Expr)

namespace Context

/-- The tree with a given subtree in the place that is left out. -/
def plug (e : Expr) : Context → Expr
  | hole => e
  | repeated inner times => .repeated (inner.plug e) times
  | apply name before inner after => .apply name (before ++ inner.plug e :: after)
  | pointwise fn before inner after => .pointwise fn (before ++ inner.plug e :: after)

variable {r : Registry} {s t : Expr}

theorem buildAll_congr (after : List Expr) (h : SameOutcome Agrees (s.build r) (t.build r)) :
    ∀ before : List Expr, SameOutcome (List.Forall₂ Agrees)
      (Expr.buildAll r (before ++ s :: after)) (Expr.buildAll r (before ++ t :: after))
  | [] => by
    refine h.bind fun x y hxy => ?_
    refine (SameOutcome.refl (fun xs => List.forall₂_same.mpr fun x _ => Agrees.refl x)
      (Expr.buildAll r after)).bind fun xs ys hrest => ?_
    exact .cons hxy hrest
  | e :: before => by
    -- What stands before the hole is built first and fails first on both sides.
    refine (SameOutcome.refl Agrees.refl (e.build r)).bind fun x y hxy => ?_
    refine (buildAll_congr after h before).bind fun xs ys hrest => ?_
    exact .cons hxy hrest

/-- Trees that differ in subtrees that build alike build alike. -/
theorem build_plug_congr (h : SameOutcome Agrees (s.build r) (t.build r)) (c : Context) :
    SameOutcome Agrees ((c.plug s).build r) ((c.plug t).build r) := by
  induction c with
  | hole => exact h
  | repeated inner times ih =>
    exact ih.bind fun x y hxy => (Operand.repeated_congr hxy times).liftM_fault
  | apply name before inner after ih =>
    refine (buildAll_congr after ih before).bind fun xs ys hxy => ?_
    exact (Registry.build_congr r name hxy).bind fun e e' he => he
  | pointwise fn before inner after ih =>
    refine (buildAll_congr after ih before).bind fun xs ys hxy => ?_
    exact (Nary.of_congr fn hxy).bind fun e e' he => he

end Context

/-! ## Trees whose elements have a fixed type -/

namespace Operand

/-- An operand that reports a type and gives only elements of that type. -/
structure Typed (x : Operand Value) (d : DType) : Prop where
  dtype_eq : x.dtype = d
  dtype_read : ∀ {index : Index} {v : Value}, x.read index = .ok v → v.dtype = d

theorem typed_map_mk {d : DType} {x : Operand d.Elem} (hd : x.dtype = d) :
    (x.map (Value.mk d)).Typed d := by
  refine ⟨hd, ?_⟩
  intro index v hv
  rw [read_map] at hv
  obtain ⟨element, _, rfl⟩ := fmap_eq_ok_iff.mp hv
  rfl

theorem Typed.repeated {x y : Operand Value} {d : DType} {times : Nat} (hx : x.Typed d)
    (h : x.repeated times = .ok y) : y.Typed d := by
  obtain ⟨count, _, h⟩ := bind_eq_ok_iff.mp h
  obtain ⟨length, _, h⟩ := bind_eq_ok_iff.mp h
  cases h
  refine ⟨hx.dtype_eq, ?_⟩
  intro index v hv
  cases index with
  | nil => cases hv
  | cons i rest =>
    have hv : (if times = 0 then Except.error Fault.divisionByZero
      else Index.unravel (i / times) x.shape >>= x.read) = .ok v := hv
    split at hv
    · cases hv
    · obtain ⟨own, _, hv⟩ := bind_eq_ok_iff.mp hv
      exact hx.dtype_read hv

end Operand

theorem Param.dtype_toValue {d : DType} : ∀ {p : Param} (x : p.Carrier), p = .typed d →
    (p.toValue x).dtype = d
  | .typed _, _, rfl => rfl

theorem Nary.typed {fn : Pointwise} {d : DType} (hd : fn.result = .typed d)
    {args : List (Operand Value)} {e : Nary} (h : Nary.of fn args = .ok e) :
    e.toOperand.Typed d := by
  obtain ⟨_, rfl, _, _⟩ := Nary.of_eq_ok h
  refine ⟨dtype_of_result hd, ?_⟩
  intro index v hv
  obtain ⟨elements, _, hv⟩ := bind_eq_ok_iff.mp hv
  obtain ⟨result, _, rfl⟩ := fmap_eq_ok_iff.mp hv
  exact Param.dtype_toValue result hd

namespace Expr

/-- The type of the elements of a tree, if it is fixed by the way the tree is made. -/
def elemType? : Expr → Option DType
  | .scalar d _ => some d
  | .dense d _ _ => some d
  | .fill d _ _ => some d
  | .tabulate d _ _ => some d
  | .view d _ => some d
  | .repeated source _ => source.elemType?
  | .apply _ _ => none
  | .pointwise fn _ =>
    match fn.result with
    | .typed d => some d
    | .any => none

theorem typed_of_build {r : Registry} {d : DType} : ∀ {e : Expr} {x : Operand Value},
    e.elemType? = some d → e.build r = .ok x → x.Typed d
  | .scalar _ v, x, hd, h => by
    cases hd
    cases h
    exact ⟨rfl, fun hv => by cases hv; rfl⟩
  | .dense _ data dims, x, hd, h => by
    cases hd
    obtain ⟨a, _, h⟩ := bind_eq_ok_iff.mp h
    cases h
    exact Operand.typed_map_mk rfl
  | .fill _ v dims, x, hd, h => by
    cases hd
    obtain ⟨a, _, h⟩ := bind_eq_ok_iff.mp h
    cases h
    exact Operand.typed_map_mk rfl
  | .tabulate _ dims f, x, hd, h => by
    cases hd
    obtain ⟨a, _, h⟩ := bind_eq_ok_iff.mp h
    cases h
    exact Operand.typed_map_mk rfl
  | .view _ spec, x, hd, h => by
    cases hd
    obtain ⟨v, _, h⟩ := bind_eq_ok_iff.mp h
    cases h
    exact Operand.typed_map_mk rfl
  | .repeated source times, x, hd, h => by
    obtain ⟨y, hy, h⟩ := bind_eq_ok_iff.mp h
    exact (typed_of_build (e := source) hd hy).repeated (liftM_fault_eq_ok_iff.mp h)
  | .pointwise fn args, x, hd, h => by
    obtain ⟨xs, _, h⟩ := bind_eq_ok_iff.mp h
    obtain ⟨e, he, h⟩ := bind_eq_ok_iff.mp h
    cases h
    refine Nary.typed ?_ he
    unfold elemType? at hd
    split at hd
    · next hresult =>
      cases hd
      exact hresult
    · cases hd

end Expr

/-! ## A subtree and its elements -/

theorem Value.mk_elemAs {v : Value} {d : DType} (h : v.dtype = d) :
    Value.mk d (v.elemAs d) = v := by
  subst h
  exact v.cast_self

/-- A typed operand agrees with the array of its elements. -/
theorem Operand.Typed.agrees {x : Operand Value} {d : DType} (hx : x.Typed d) {data : Array d.Elem}
    (htable : Index.Tabulates x.shape (x.map (·.elemAs d)).read data) {count : Nat}
    (hcount : x.numel = .ok count) :
    x.Agrees (((⟨x.shape, data⟩ : Dense d.Elem).toOperand d).map (Value.mk d)) := by
  refine ⟨rfl, hx.dtype_eq, ?_⟩
  intro index hb
  obtain ⟨element, helement, hread⟩ := htable.read_eq hb
  obtain ⟨element', helement', hdense⟩ := (Dense.full_of_tabulates htable hcount).read_eq hb
  obtain ⟨v, hv, rfl⟩ := fmap_eq_ok_iff.mp hread
  have hsame : element' = v.elemAs d := Option.some.inj (helement'.symm.trans helement)
  show _ = Value.mk d <$> Dense.read ⟨x.shape, data⟩ index
  rw [hdense, hsame, hv]
  show _ = Except.ok (Value.mk d (v.elemAs d))
  rw [Value.mk_elemAs (hx.dtype_read hv)]

/--
**Lazy and eager evaluation agree in every context.** A subtree whose elements have a fixed type,
can be counted and can be read is evaluated to a dense array. In any context, the tree with that
array in the place of the subtree fails with the same error, or it has the same shape, reports the
same type and reads the same at every index in bounds.
-/
theorem Context.plug_materialized (r : Registry) (c : Context) {t : Expr} {d : DType}
    (ht : t.elemType? = some d) {x : Operand Value} (hx : t.build r = .ok x) {count : Nat}
    (hcount : x.numel = .ok count)
    (hread : ∀ index : Index, index.InBounds x.shape → ∃ v, x.read index = .ok v) :
    ∃ a : Dense d.Elem, (x.map (·.elemAs d)).materialize = .ok a ∧
      Dense.ofArray a.data a.dims = .ok a ∧
      SameOutcome Operand.Agrees ((c.plug t).build r)
        ((c.plug (.dense d a.data a.dims)).build r) := by
  have helements : ∀ index : Index, index.InBounds x.shape →
      ∃ element, (x.map (·.elemAs d)).read index = .ok element := by
    intro index hb
    obtain ⟨v, hv⟩ := hread index hb
    exact ⟨v.elemAs d, fmap_eq_ok_iff.mpr ⟨v, hv, rfl⟩⟩
  obtain ⟨data, htable⟩ := Index.exists_tabulates helements
  have harray : Dense.ofArray data x.shape = .ok ⟨x.shape, data⟩ := by
    refine bind_eq_ok_iff.mpr ⟨count, liftM_fault_eq_ok_iff.mpr hcount, ?_⟩
    rw [if_neg (fun hne => hne (htable.size_eq_count hcount).symm)]
  refine ⟨⟨x.shape, data⟩, Operand.materialize_eq htable hcount, harray, ?_⟩
  -- The context is out of the way: what is left compares the subtree with one leaf.
  refine build_plug_congr ?_ c
  have hdense : (Expr.dense d data x.shape).build r
      = .ok (((⟨x.shape, data⟩ : Dense d.Elem).toOperand d).map (Value.mk d)) :=
    bind_eq_ok_iff.mpr ⟨_, harray, rfl⟩
  rw [hx, hdense]
  exact (Expr.typed_of_build ht hx).agrees htable hcount

/-- Two numbers, each of them twice. -/
def Expr.copies : Expr :=
  .repeated (.dense (.int .w32) #[1, 2] [2]) 2

/-- A column of three factors for whatever is plugged in. -/
def Context.scaled : Context :=
  .apply "multiply" [.view (.int .w32) ⟨#[10, 20, 30], [3, 1], none, []⟩] .hole []

theorem Context.plug_materialized_copies :
    SameOutcome Operand.Agrees ((scaled.plug Expr.copies).build Registry.standard)
        ((scaled.plug (.dense (.int .w32) #[1, 1, 2, 2] [4])).build Registry.standard) ∧
      ∃ y, (scaled.plug Expr.copies).build Registry.standard = .ok y ∧ y.shape = [3, 4] := by
  have hsource : Dense.ofArray (α := (DType.int .w32).Elem) #[1, 2] [2] = .ok ⟨[2], #[1, 2]⟩ := rfl
  have hbuild : Expr.copies.build Registry.standard = .ok _ := rfl
  have hpair := ((Dense.full_of_ofArray hsource).readable (.int .w32)).map (Value.mk _)
  have hread := @Operand.Readable.repeated _ _ _ 2 hpair rfl
  obtain ⟨a, ha, _, h⟩ := plug_materialized Registry.standard scaled rfl hbuild rfl hread
  have heq : a = ⟨[4], #[1, 1, 2, 2]⟩ := Except.ok.inj (ha.symm.trans rfl)
  subst heq
  exact ⟨h, _, rfl, rfl⟩

end Broadcast
