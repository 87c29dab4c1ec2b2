import Broadcast.Proofs.CommonShape
import Broadcast.Proofs.Totality

/-!
# Nested and flat expressions

A pointwise expression may stand for one operand of another. The same elements come out if the
inner expression is dissolved: its operands take its place among those of the outer one, and the
two functions are composed. Three things go into this:

* `broadcast_nested_iff` — broadcasting some of the shapes first does not change the common shape
* `Plan.project_project` — an index that is projected to the inner shape and then to an operand is
  the index projected to the operand
* `Curried.apply_compose` — the composed function does on all values what the two do in turn

The operands are read in the same order on both sides, so the two agree on faults as well.
-/

namespace Broadcast

/-! ## Composed functions -/

theorem Param.ofValue_toValue : ∀ (p : Param) (x : p.Carrier), p.ofValue (p.toValue x) = x
  | .typed d, x => Value.elemAs_mk d x
  | .any, _ => rfl

namespace Curried

variable {p : Param} {after : List Param} {β : Type}

/-- Takes the arguments of `f` in place of the first one of `g`. -/
def feed : (inner : List Param) → Curried inner p.Carrier → Curried (p :: after) β →
    Curried (inner ++ after) β
  | [], y, g => g y
  | _ :: inner, f, g => fun x => feed inner (f x) g

/-- Takes the arguments of `f` in place of the one of `g` behind the first few. -/
def compose (inner : List Param) (f : Curried inner p.Carrier) : (before : List Param) →
    Curried (before ++ p :: after) β → Curried (before ++ (inner ++ after)) β
  | [], g => feed inner f g
  | _ :: before, g => fun x => compose inner f before (g x)

theorem apply_feed {zs : List Value} (g : Curried (p :: after) β) :
    ∀ {inner : List Param} (f : Curried inner p.Carrier) {ys : List Value},
    ys.length = inner.length →
    Curried.apply (inner ++ after) (feed inner f g) (ys ++ zs)
      = (Curried.apply inner f ys >>= fun y => Curried.apply after (g y) zs)
  | [], _, [], _ => rfl
  | q :: _, f, y :: _, h => apply_feed g (f (q.ofValue y)) (Nat.succ.inj h)

theorem apply_compose {inner : List Param} (f : Curried inner p.Carrier) {ys zs : List Value}
    (hys : ys.length = inner.length) :
    ∀ {before : List Param} (g : Curried (before ++ p :: after) β) {xs : List Value},
    xs.length = before.length →
    Curried.apply (before ++ (inner ++ after)) (compose inner f before g) (xs ++ (ys ++ zs))
      = (Curried.apply inner f ys >>= fun y =>
          Curried.apply (before ++ p :: after) g (xs ++ p.toValue y :: zs))
  | [], g, [], _ => by
    refine (apply_feed g f hys).trans ?_
    congr
    funext y
    show _ = Curried.apply after (g (p.ofValue (p.toValue y))) zs
    rw [Param.ofValue_toValue]
  | q :: _, g, x :: _, h => apply_compose f hys (g (q.ofValue x)) (Nat.succ.inj h)

end Curried

/-- The function of all operands of `g` but one and, in the place of that one, of those of `f`. -/
def Pointwise.compose (g f : Pointwise) (before after : List Param)
    (h : g.params = before ++ f.result :: after) : Pointwise where
  name := g.name
  params := before ++ (f.params ++ after)
  result := g.result
  fn := Curried.compose f.params f.fn before (h ▸ g.fn)

theorem Pointwise.apply_compose {g f : Pointwise} {before after : List Param}
    (h : g.params = before ++ f.result :: after) {xs ys zs : List Value}
    (hxs : xs.length = before.length) (hys : ys.length = f.arity) :
    (g.compose f before after h).apply (xs ++ (ys ++ zs))
      = (f.apply ys >>= fun y => g.apply (xs ++ y :: zs)) := by
  obtain ⟨name, params, result, fn⟩ := g
  cases h
  show result.toValue <$> Curried.apply _ (Curried.compose f.params f.fn before fn) _ = _
  rw [Curried.apply_compose f.fn hys fn hxs]
  show _ = (f.result.toValue <$> Curried.apply f.params f.fn ys >>= fun y =>
    result.toValue <$> Curried.apply _ fn (xs ++ y :: zs))
  cases Curried.apply f.params f.fn ys with
  | error fault => rfl
  | ok y => rfl

/-! ## Broadcasting in two steps -/

namespace Shape

theorem foldl_max_eq (l : List Nat) (start : Nat) :
    l.foldl max start = max start (l.foldl max 0) := by
  induction l generalizing start with
  | nil => simp
  | cons n l ih =>
    rw [List.foldl_cons, List.foldl_cons, ih (max start n), ih (max 0 n)]
    omega

theorem maxRank_append (shapes others : List Shape) :
    maxRank (shapes ++ others) = max (maxRank shapes) (maxRank others) := by
  rw [maxRank, List.map_append, List.foldl_append, foldl_max_eq]
  rfl

theorem maxRank_cons (s : Shape) (shapes : List Shape) :
    maxRank (s :: shapes) = max s.length (maxRank shapes) := by
  rw [maxRank, List.map_cons, List.foldl_cons, foldl_max_eq, Nat.zero_max]
  rfl

/-- Filling up in two steps. -/
theorem padded_eq_append {s : Shape} {rank rank' : Nat} (hs : s.length ≤ rank)
    (hrank : rank ≤ rank') : s.padded rank' = List.replicate (rank' - rank) 1 ++ s.padded rank := by
  rw [padded, padded, ← List.append_assoc, List.replicate_append_replicate]
  congr
  omega

theorem getD_padded_of_lt {s : Shape} {rank rank' axis : Nat} (hs : s.length ≤ rank)
    (hrank : rank ≤ rank') (haxis : axis < rank' - rank) : (s.padded rank').getD axis 1 = 1 := by
  rw [padded_eq_append hs hrank, List.getD_append _ _ _ _ (by simpa using haxis),
    List.getD_replicate _ haxis]

theorem getD_padded_add {s : Shape} {rank rank' : Nat} (hs : s.length ≤ rank)
    (hrank : rank ≤ rank') (axis : Nat) :
    (s.padded rank').getD (rank' - rank + axis) 1 = (s.padded rank).getD axis 1 := by
  rw [padded_eq_append hs hrank, List.getD_append_right _ _ _ _ (by simp), List.length_replicate,
    Nat.add_sub_cancel_left]

theorem getD_padded_self {s : Shape} {axis : Nat} (haxis : axis < s.length) :
    (s.padded s.length).getD axis 1 = s[axis] := by
  simp [padded, haxis]

theorem axisSizes_add {shapes : List Shape} {rank : Nat} (h : maxRank shapes ≤ rank) (axis : Nat) :
    axisSizes rank (rank - maxRank shapes + axis) shapes
      = axisSizes (maxRank shapes) axis shapes :=
  List.map_congr_left fun _ hs => getD_padded_add (length_le_maxRank hs) h axis

/-- On every axis of a larger rank, the common shape has the common size. -/
theorem IsCommon.isJoin_padded {shapes : List Shape} {out : Shape} (h : IsCommon shapes out)
    {rank : Nat} (hrank : maxRank shapes ≤ rank) {axis : Nat} (haxis : axis < rank) :
    IsJoin (axisSizes rank axis shapes) ((out.padded rank).getD axis 1) := by
  have hlen := h.length_eq
  by_cases hlead : axis < rank - maxRank shapes
  · -- In front of all shapes there are only ones.
    rw [getD_padded_of_lt (Nat.le_of_eq hlen) hrank hlead]
    refine ⟨?_, .inl rfl⟩
    intro n hn
    obtain ⟨s, hs, rfl⟩ := List.mem_map.mp hn
    exact .inl (getD_padded_of_lt (length_le_maxRank hs) hrank hlead)
  · obtain ⟨own, rfl⟩ := Nat.exists_eq_add_of_le (Nat.not_lt.mp hlead)
    have hown : own < out.length := by omega
    rw [axisSizes_add hrank, getD_padded_add (Nat.le_of_eq hlen) hrank, ← hlen,
      getD_padded_self hown]
    exact h.size own hown

/-- Sizes may be joined in two steps. -/
theorem isJoin_nested_iff {before inner after : List Nat} {m n : Nat} (hm : IsJoin inner m) :
    IsJoin (before ++ m :: after) n ↔ IsJoin (before ++ (inner ++ after)) n := by
  obtain ⟨hinner, hmid⟩ := hm
  constructor
  · rintro ⟨hall, hattained⟩
    simp only [List.mem_append, List.mem_cons] at hall hattained
    have hmn : m = 1 ∨ m = n := hall m (.inr (.inl rfl))
    constructor <;> simp only [List.mem_append]
    · rintro k (hk | hk | hk)
      · exact hall k (.inl hk)
      · have hkm := hinner k hk
        omega
      · exact hall k (.inr (.inr hk))
    · grind
  · rintro ⟨hall, hattained⟩
    simp only [List.mem_append] at hall hattained
    constructor <;> simp only [List.mem_append, List.mem_cons]
    · rintro k (hk | rfl | hk)
      · exact hall k (.inl hk)
      · exact hmid.elim .inl fun hk => hall k (.inr (.inl hk))
      · exact hall k (.inr (.inr hk))
    · grind

/-- The common shape of some of the shapes may stand for them. -/
theorem broadcast_nested_iff {before inner after : List Shape} {mid out : Shape}
    (hmid : broadcast inner = .ok mid) :
    broadcast (before ++ mid :: after) = .ok out ↔
      broadcast (before ++ (inner ++ after)) = .ok out := by
  have hcommon := broadcast_eq_ok_iff.mp hmid
  have hrank : maxRank (before ++ mid :: after) = maxRank (before ++ (inner ++ after)) := by
    rw [maxRank_append, maxRank_cons, maxRank_append, maxRank_append, hcommon.length_eq]
  have hle : maxRank inner ≤ maxRank (before ++ (inner ++ after)) := by
    rw [maxRank_append, maxRank_append]
    omega
  rw [broadcast_eq_ok_iff, broadcast_eq_ok_iff, isCommon_iff, isCommon_iff, hrank]
  refine and_congr_right fun hlen => forall_congr' fun axis => forall_congr' fun haxis => ?_
  have hjoin := hcommon.isJoin_padded (hlen ▸ hle) haxis
  simp only [axisSizes, List.map_append, List.map_cons]
  exact isJoin_nested_iff hjoin

/-- Shapes that have a common shape have one when some of them are left out. -/
theorem exists_broadcast_of_append {before inner after : List Shape} {out : Shape}
    (hout : broadcast (before ++ (inner ++ after)) = .ok out) :
    ∃ mid, broadcast inner = .ok mid := by
  refine exists_broadcast_iff.mpr fun axis haxis => ?_
  have hle : maxRank inner ≤ maxRank (before ++ (inner ++ after)) := by
    rw [maxRank_append, maxRank_append]
    omega
  have hagree := exists_broadcast_iff.mp ⟨out, hout⟩
    (maxRank (before ++ (inner ++ after)) - maxRank inner + axis) (by omega)
  rw [← axisSizes_add hle]
  intro m hm n hn
  simp only [axisSizes, List.map_append] at hagree hm hn
  exact hagree m (List.mem_append_right _ (List.mem_append_left _ hm)) n
    (List.mem_append_right _ (List.mem_append_left _ hn))

end Shape

/-! ## Projecting in two steps -/

namespace Plan

theorem length_project_align {s : Shape} {rank : Nat} {index : Index} (hle : s.length ≤ rank)
    (hindex : index.length = rank) : ((align s rank).project index).length = s.length := by
  rw [length_project (by rw [lead_add_rank_align hle, hindex]), rank_align]

/-- An index may be projected to the common shape of some shapes first, and then to one of them. -/
theorem project_project {shapes : List Shape} {mid s : Shape}
    (hmid : Shape.broadcast shapes = .ok mid) (hs : s ∈ shapes) {rank : Nat}
    (hrank : mid.length ≤ rank) {index : Index} (hindex : index.length = rank) :
    (align s mid.length).project ((align mid rank).project index)
      = (align s rank).project index := by
  have hle := Shape.length_le_of_broadcast hmid hs
  have hmidLength := length_project_align hrank hindex
  have hleft := length_project_align hle hmidLength
  have hright := length_project_align (Nat.le_trans hle hrank) hindex
  refine List.ext_getElem (hleft.trans hright.symm) ?_
  intro k hk hk'
  have hks : k < s.length := hleft ▸ hk
  obtain ⟨haxis, hsize⟩ := Shape.getElem_of_broadcast hmid hs hks
  rw [getElem_project_align hks (hmidLength.symm ▸ haxis) hk,
    getElem_project_align hks (by omega) hk']
  split
  -- An axis that is kept has the same size in the common shape, so it is kept there too.
  · next hne =>
    have hkept : mid[mid.length - s.length + k] ≠ 1 := hsize.resolve_left hne ▸ hne
    rw [getElem_project_align haxis (by omega) (hmidLength.symm ▸ haxis), if_pos hkept]
    congr 1
    omega
  · rfl

end Plan

/-! ## Dissolving an inner expression -/

namespace Nary

theorem broadcast_of {fn : Pointwise} {args : List (Operand Value)} {e : Nary}
    (h : Nary.of fn args = .ok e) :
    Shape.broadcast (args.map (·.shape)) = .ok e.toOperand.shape :=
  (Layout.of_eq_ok (of_eq_ok h).2.2.2).1

/-- Reading an expression reads its operands one after another and applies the function. -/
theorem read_eq_mapM {fn : Pointwise} {args : List (Operand Value)} {e : Nary}
    (h : Nary.of fn args = .ok e) {index : Index} (hb : index.InBounds e.toOperand.shape) :
    e.toOperand.read index = (args.mapM fun x =>
      x.read ((Plan.align x.shape e.toOperand.shape.length).project index)) >>= fn.apply := by
  obtain ⟨_, hfn, hargs, hlayout⟩ := of_eq_ok h
  show (e.layout.gather e.args index >>= e.fn.apply) = _
  rw [hfn, hargs, Layout.gather_eq_mapM hlayout hb]
  rfl

/-- Read through a plan, an expression reads its operands as if they had that plan's output. -/
theorem read_project {f : Pointwise} {ys : List (Operand Value)} {inner : Nary}
    (h : Nary.of f ys = .ok inner) {rank : Nat} (hrank : inner.toOperand.shape.length ≤ rank)
    {index : Index} (hindex : index.length = rank)
    (hb : ((Plan.align inner.toOperand.shape rank).project index).InBounds
      inner.toOperand.shape) :
    inner.toOperand.read ((Plan.align inner.toOperand.shape rank).project index)
      = (ys.mapM fun y => y.read ((Plan.align y.shape rank).project index)) >>= f.apply := by
  rw [read_eq_mapM h hb]
  congr 1
  refine mapM_congr_of_mem fun y hy => ?_
  rw [Plan.project_project (broadcast_of h) (List.mem_map_of_mem hy) hrank hindex]

/-- Where one operand reads as a function of others, the composed function can read those. -/
theorem mapM_compose {rd : Operand Value → Except Fault Value} {f g : Pointwise}
    {before after : List Param} (hg : g.params = before ++ f.result :: after)
    {xs ys zs : List (Operand Value)} (hxs : xs.length = before.length)
    (hys : ys.length = f.arity) {x : Operand Value} (hx : rd x = ys.mapM rd >>= f.apply) :
    ((xs ++ x :: zs).mapM rd >>= g.apply)
      = ((xs ++ (ys ++ zs)).mapM rd >>= (g.compose f before after hg).apply) := by
  rw [List.mapM_append, List.mapM_append, List.mapM_append, List.mapM_cons, hx]
  cases has : xs.mapM rd with
  | error fault => rfl
  | ok as =>
    cases hbs : ys.mapM rd with
    | error fault => rfl
    | ok bs =>
      rw [(mapM_eq_ok_iff.mp has).length_eq] at hxs
      rw [(mapM_eq_ok_iff.mp hbs).length_eq] at hys
      obtain ⟨y, hy⟩ := Curried.apply_eq_ok f.fn hys
      have happly : f.apply bs = .ok (f.result.toValue y) := by
        rw [Pointwise.apply, hy]
        rfl
      cases zs.mapM rd with
      | error fault => simp [bind, Except.bind, happly]
      | ok cs =>
        simp only [bind, Except.bind, pure, Except.pure, happly]
        rw [Pointwise.apply_compose hg hxs hys, happly]
        rfl

end Nary

/--
**Nesting equals flattening.** A function `g` over some operands, one of which is a function `f` of
others, is built exactly if the composed function over all operands in their order is. Both then
have the same shape, and at every index in bounds they read the same element, or the same operand
fails with the same fault.
-/
theorem Nary.nested_eq_flat {f g : Pointwise} {before after : List Param}
    (hg : g.params = before ++ f.result :: after) {xs ys zs : List (Operand Value)}
    (hxs : xs.length = before.length) (hys : ys.length = f.arity)
    (hzs : zs.length = after.length) :
    ((∃ inner, Nary.of f ys = .ok inner ∧
        ∃ outer, Nary.of g (xs ++ inner.toOperand :: zs) = .ok outer) ↔
      ∃ flat, Nary.of (g.compose f before after hg) (xs ++ (ys ++ zs)) = .ok flat) ∧
    ∀ inner outer flat, Nary.of f ys = .ok inner →
      Nary.of g (xs ++ inner.toOperand :: zs) = .ok outer →
      Nary.of (g.compose f before after hg) (xs ++ (ys ++ zs)) = .ok flat →
      outer.toOperand.shape = flat.toOperand.shape ∧
        ∀ index : Index, index.InBounds outer.toOperand.shape →
          outer.toOperand.read index = flat.toOperand.read index := by
  have hshape : ∀ {inner : Nary}, Nary.of f ys = .ok inner → ∀ out,
      Shape.broadcast ((xs ++ inner.toOperand :: zs).map (·.shape)) = .ok out ↔
        Shape.broadcast ((xs ++ (ys ++ zs)).map (·.shape)) = .ok out := by
    intro inner hinner out
    simp only [List.map_append, List.map_cons]
    exact Shape.broadcast_nested_iff (broadcast_of hinner)
  refine ⟨⟨?_, ?_⟩, ?_⟩
  · rintro ⟨inner, hinner, outer, houter⟩
    refine exists_of_iff.mpr ⟨?_, _, (hshape hinner _).mp (broadcast_of houter)⟩
    simp [Pointwise.compose, Pointwise.arity, hxs, hzs, hys]
  · rintro ⟨flat, hflat⟩
    have hout := broadcast_of hflat
    obtain ⟨mid, hmid⟩ : ∃ mid, Shape.broadcast (ys.map (·.shape)) = .ok mid := by
      rw [List.map_append, List.map_append] at hout
      exact Shape.exists_broadcast_of_append hout
    obtain ⟨inner, hinner⟩ := exists_of_iff.mpr ⟨hys, mid, hmid⟩
    refine ⟨inner, hinner, exists_of_iff.mpr ⟨?_, _, (hshape hinner _).mpr hout⟩⟩
    simp [Pointwise.arity, hg, hxs, hzs]
  · intro inner outer flat hinner houter hflat
    have hout := broadcast_of houter
    have hsame : outer.toOperand.shape = flat.toOperand.shape :=
      Except.ok.inj (((hshape hinner _).mp hout).symm.trans (broadcast_of hflat))
    refine ⟨hsame, ?_⟩
    intro index hb
    have hmem : inner.toOperand.shape ∈ (xs ++ inner.toOperand :: zs).map (·.shape) :=
      List.mem_map_of_mem (List.mem_append_right xs List.mem_cons_self)
    rw [read_eq_mapM houter hb, read_eq_mapM hflat (hsame ▸ hb), ← hsame]
    exact mapM_compose hg hxs hys (read_project hinner (Shape.length_le_of_broadcast hout hmem)
      (Index.length_of_inBounds hb) (project_inBounds hout hmem hb).2)

/-- The product of two numbers. -/
def Pointwise.product : Pointwise :=
  ⟨"product", [.typed (.uint .w32), .typed (.uint .w32)], .typed (.uint .w32), fun p q => p * q⟩

/-- The first of three numbers less the second, and then the third added. -/
def Pointwise.balance : Pointwise :=
  ⟨"balance", [.typed (.uint .w32), .typed (.uint .w32), .typed (.uint .w32)],
    .typed (.uint .w32), fun p q r => p - q + r⟩

/-- Numbers as an operand. -/
def Operand.numbers (dims : Shape) (data : Array (BitVec 32)) : Operand Value :=
  ((⟨dims, data⟩ : Dense (DType.uint .w32).Elem).toOperand (.uint .w32)).map (Value.mk _)

/-- A column less the multiples of a row, with one number added. -/
theorem Nary.nested_eq_flat_balance :
    ∃ inner outer flat,
      Nary.of .product [.numbers [3] #[1, 2, 3], .numbers [] #[10]] = .ok inner ∧
      Nary.of .balance [.numbers [2, 1] #[100, 200], inner.toOperand, .numbers [1] #[5]]
        = .ok outer ∧
      Nary.of (Pointwise.balance.compose .product [.typed (.uint .w32)] [.typed (.uint .w32)] rfl)
        [.numbers [2, 1] #[100, 200], .numbers [3] #[1, 2, 3], .numbers [] #[10],
          .numbers [1] #[5]] = .ok flat ∧
      outer.toOperand.shape = [2, 3] ∧ flat.toOperand.shape = [2, 3] ∧
      outer.toOperand.read [1, 2] = flat.toOperand.read [1, 2] := by
  have hg : Pointwise.balance.params
      = [.typed (.uint .w32)] ++ Pointwise.product.result :: [.typed (.uint .w32)] := rfl
  have hxs : [Operand.numbers [2, 1] #[100, 200]].length = [Param.typed (.uint .w32)].length := rfl
  have hys : [Operand.numbers [3] #[1, 2, 3], .numbers [] #[10]].length
      = Pointwise.product.arity := rfl
  have hzs : [Operand.numbers [1] #[5]].length = [Param.typed (.uint .w32)].length := rfl
  obtain ⟨_, hsame⟩ := nested_eq_flat hg hxs hys hzs
  refine ⟨_, _, _, rfl, rfl, rfl, rfl, rfl, ?_⟩
  exact (hsame _ _ _ rfl rfl rfl).2 [1, 2] (by decide)

end Broadcast
