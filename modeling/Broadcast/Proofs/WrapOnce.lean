import Broadcast.Proofs.Flattening
import Broadcast.Proofs.IntegerKernels

/-!
# Wrapping once is enough

Sums, differences and products of integers wrap at every node of a tree, and inside a node already at
128 bits. The element that comes out is still the one of the polynomial over all integers, wrapped
once at the end. Wrapping is a homomorphism of rings: whether a number is wrapped before or after an
operation makes no difference to the wrapped result. So what a node hands to the next one need only
be right up to wrapping, which is the invariant of the induction (`RingTree.reads_congruent`).

Every leaf is read where the index of the root projects to it, however many nodes lie in between.
-/

namespace Broadcast

theorem Plan.project_self {s : Shape} {index : Index} (h : index.InBounds s) :
    (align s s.length).project index = index := by
  obtain ⟨hlen, hcomponents⟩ := Index.inBounds_iff.mp h
  have hproject := length_project_align (Nat.le_refl s.length) hlen
  refine List.ext_getElem (hproject.trans hlen.symm) ?_
  intro k hk hk'
  have hks : k < s.length := hproject ▸ hk
  have hlt := hcomponents k hk' hks
  rw [getElem_project_align hks (by omega) hk]
  split
  · congr 1
    omega
  · omega

/-! ## Trees of ring operations -/

/-- Sums, differences and products over operands. -/
inductive RingTree where
  | leaf (x : Operand Value)
  | node (op : RingOp) (a b : RingTree)

namespace RingTree

/-- The operand that a tree stands for: each node is an application of its kernel. -/
def build : RingTree → Except Error (Operand Value)
  | leaf x => .ok x
  | node op a b => do
    let x ← a.build
    let y ← b.build
    let e ← Registry.standard.build op.name [x, y]
    return e.toOperand

/-- The polynomial over all integers, at the elements of the leaves that belong to an index. -/
def value : RingTree → (rank : Nat) → Index → Except Fault Int
  | leaf x, rank, index => Value.toInt <$> x.read ((Plan.align x.shape rank).project index)
  | node op a b, rank, index => do
    let m ← a.value rank index
    let n ← b.value rank index
    return op.onInt m n

/-- Every node reports the type `d`. -/
def Uniform (d : DType) : RingTree → Prop
  | leaf _ => True
  | node op a b => (∀ x, (node op a b).build = .ok x → x.dtype = d) ∧ a.Uniform d ∧ b.Uniform d

end RingTree

/-! ## One node -/

/--
An operand reads the numbers that `value` gives, up to the relation `R`, as a part of any output: it
is read where the index of the output projects to it.
-/
def Operand.Reads (R : Value → Int → Prop) (x : Operand Value)
    (value : Nat → Index → Except Fault Int) : Prop :=
  ∀ (rank : Nat) (index : Index), x.shape.length ≤ rank → index.length = rank →
    ((Plan.align x.shape rank).project index).InBounds x.shape →
    SameOutcome R (x.read ((Plan.align x.shape rank).project index)) (value rank index)

/-- A value and a number that wrap to the same element of type `d`. -/
def Value.Congruent (d : DType) (v : Value) (z : Int) : Prop :=
  d.ofInt v.toInt = d.ofInt z

theorem RingOp.ofInt_congr (op : RingOp) {d : DType} (hd : d.isInteger) {m m' n n' : Int}
    (hm : d.ofInt m = d.ofInt m') (hn : d.ofInt n = d.ofInt n') :
    d.ofInt (op.onInt m n) = d.ofInt (op.onInt m' n') := by
  cases d with
  | int w | uint w =>
    refine (op.ofInt_onInt m n).trans (Eq.trans ?_ (op.ofInt_onInt m' n').symm)
    exact congrArg₂ op.onWords hm hn
  | bool | float p | complex p => cases hd

/-- If both operands read numbers that are right up to wrapping, a node reads the wrapped number. -/
theorem RingOp.reads_of_build (op : RingOp) {d : DType} (hd : d.isInteger) {x y : Operand Value}
    {e : Application} (he : Registry.standard.build op.name [x, y] = .ok e)
    (hed : e.toOperand.dtype = d) {f g : Nat → Index → Except Fault Int}
    (hx : x.Reads (Value.Congruent d) f) (hy : y.Reads (Value.Congruent d) g) :
    e.toOperand.Reads (fun v z => v = ⟨d, d.ofInt z⟩) fun rank index => do
      let m ← f rank index
      let n ← g rank index
      return op.onInt m n := by
  obtain ⟨_, _, hlayout⟩ := (WordOp.ring op).layout_of_build he
  have hout : Shape.broadcast ([x, y].map (·.shape)) = .ok e.toOperand.shape :=
    (Layout.of_eq_ok hlayout).1
  intro rank index hrank hindex hb
  -- Projecting to the node first and then to an operand is projecting to the operand.
  have hoperand : ∀ s ∈ [x, y].map (·.shape), s.length ≤ rank ∧
      (Plan.align s e.toOperand.shape.rank).project
        ((Plan.align e.toOperand.shape rank).project index) = (Plan.align s rank).project index ∧
      ((Plan.align s rank).project index).InBounds s := by
    intro s hs
    have hproject := Plan.project_project hout hs hrank hindex
    exact ⟨Nat.le_trans (Shape.length_le_of_broadcast hout hs) hrank, hproject,
      hproject ▸ (project_inBounds hout hs hb).2⟩
  obtain ⟨hxrank, hxproject, hxb⟩ := hoperand x.shape List.mem_cons_self
  obtain ⟨hyrank, hyproject, hyb⟩ := hoperand y.shape (List.mem_cons_of_mem _ List.mem_cons_self)
  rw [(WordOp.ring op).read_of_build he hb, hed, hxproject, hyproject]
  refine (hx rank index hxrank hindex hxb).bind fun v z hv => ?_
  refine (hy rank index hyrank hindex hyb).bind fun w z' hw => ?_
  show (⟨d, (WordOp.ring op).rule d v w⟩ : Value) = ⟨d, d.ofInt (op.onInt z z')⟩
  rw [WordOp.rule_ring op hd, op.ofInt_congr hd hv hw]

/-! ## Whole trees -/

namespace RingTree

variable {d : DType} {op : RingOp} {a b : RingTree} {x : Operand Value}

theorem reads_node (hd : d.isInteger) (h : (node op a b).build = .ok x) (hxd : x.dtype = d)
    (ha : ∀ y, a.build = .ok y → y.Reads (Value.Congruent d) a.value)
    (hb : ∀ y, b.build = .ok y → y.Reads (Value.Congruent d) b.value) :
    x.Reads (fun v z => v = ⟨d, d.ofInt z⟩) (node op a b).value := by
  obtain ⟨y, hy, h⟩ := bind_eq_ok_iff.mp h
  obtain ⟨z, hz, h⟩ := bind_eq_ok_iff.mp h
  obtain ⟨e, he, h⟩ := bind_eq_ok_iff.mp h
  cases h
  exact op.reads_of_build hd he hxd (ha y hy) (hb z hz)

/-- Every tree reads numbers that are right up to wrapping. -/
theorem reads_congruent (hd : d.isInteger) : ∀ {t : RingTree} {x : Operand Value},
    t.build = .ok x → t.Uniform d → x.Reads (Value.Congruent d) t.value
  | leaf y, x, h, _ => by
    cases h
    intro rank index _ _ _
    show SameOutcome _ _ (Value.toInt <$> y.read ((Plan.align y.shape rank).project index))
    cases y.read ((Plan.align y.shape rank).project index) with
    | error fault => exact rfl
    | ok v => exact rfl
  | node op a b, x, h, ⟨hxd, ha, hb⟩ => by
    have hnode := reads_node hd h (hxd x h) (fun y hy => reads_congruent hd hy ha)
      fun y hy => reads_congruent hd hy hb
    intro rank index hrank hindex hin
    refine (hnode rank index hrank hindex hin).imp ?_
    rintro v z rfl
    exact DType.ofInt_toInt (DType.isIntegral_of_isInteger hd) _

/--
**Wrapping once is enough.** Let a tree of sums, differences and products be built, and let all of
its nodes report the same integer type. Then its element at an index in bounds is the number of the
polynomial over all integers, at the numbers of the leaves where the index projects to them, taken
once into the range of that type modulo two to the power of its width. If a leaf cannot be read
there, neither can the tree.
-/
theorem wraps_once (hd : d.isInteger) (h : (node op a b).build = .ok x)
    (huniform : (node op a b).Uniform d) {index : Index} (hb : index.InBounds x.shape) :
    SameOutcome (fun v z => v.Wraps d z) (x.read index)
      ((node op a b).value x.shape.rank index) := by
  obtain ⟨hxd, hua, hub⟩ := huniform
  have hnode := reads_node hd h (hxd x h) (fun y hy => reads_congruent hd hy hua)
    fun y hy => reads_congruent hd hy hub
  have hself := Plan.project_self hb
  have hroot := hnode x.shape.length index (Nat.le_refl _) (Index.length_of_inBounds hb)
    (hself.symm ▸ hb)
  rw [hself] at hroot
  refine hroot.imp ?_
  rintro v z rfl
  exact Value.wraps_ofInt hd z

/-- A product of a column, plus one, and a row, less five, in which both factors wrap around. -/
def wrappedProduct : RingTree :=
  .node .multiply
    (.node .add
      (.leaf (((⟨[2, 1], #[0, 0xfffffffffffffffe]⟩ : Dense (BitVec 64)).toOperand
        (.uint .w64)).map (Value.mk (.uint .w64))))
      (.leaf (.scalar .bool ⟨.bool, true⟩)))
    (.node .subtract
      (.leaf (((⟨[3], #[1, 2, 3]⟩ : Dense (BitVec 8)).toOperand (.uint .w8)).map
        (Value.mk (.uint .w8))))
      (.leaf (.scalar (.uint .w64) ⟨.uint .w64, 5⟩)))

/-- The product of the wrapped factors overflows 128 bits, and the element is the right one. -/
theorem wraps_once_wrappedProduct :
    ∃ x, wrappedProduct.build = .ok x ∧ x.shape = [2, 3] ∧
      wrappedProduct.value 2 [1, 2] = .ok ((0xfffffffffffffffe + 1) * (3 - 5)) ∧
      x.read [1, 2] = .ok ⟨.uint .w64, 2⟩ ∧
      Value.Wraps ⟨.uint .w64, 2⟩ (.uint .w64) ((0xfffffffffffffffe + 1) * (3 - 5)) := by
  have huniform : wrappedProduct.Uniform (.uint .w64) := by
    refine ⟨?_, ⟨?_, trivial, trivial⟩, ⟨?_, trivial, trivial⟩⟩ <;>
      · intro x hx
        cases hx
        rfl
  have hbuild : wrappedProduct.build = .ok _ := rfl
  have hb : Index.InBounds [1, 2] [2, 3] := by decide
  have h := wraps_once rfl hbuild huniform hb
  exact ⟨_, hbuild, rfl, rfl, rfl, h⟩

end RingTree

end Broadcast
