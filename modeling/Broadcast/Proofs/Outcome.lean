import Mathlib.Data.List.Forall2
import Broadcast.Error

/-!
# Outcomes

A computation ends in a result or in the first thing that is wrong. This module says what it means
that a list of computations succeeds (`mapM_eq_ok_iff`), and when two computations end alike
(`SameOutcome`): in the same error, or in results that correspond to each other.
-/

namespace Broadcast

variable {ε α β γ δ : Type}

/-! ## Single computations -/

theorem fmap_eq_ok_iff {f : α → β} {x : Except ε α} {b : β} :
    f <$> x = .ok b ↔ ∃ a, x = .ok a ∧ f a = b := by
  cases x with
  | error e => simp [Functor.map, Except.map]
  | ok a => simp [Functor.map, Except.map]

/-! ## Lists of computations -/

/-- A list of computations succeeds exactly if each of them does. -/
theorem mapM_eq_ok_iff {f : α → Except ε β} : ∀ {l : List α} {bs : List β},
    l.mapM f = .ok bs ↔ List.Forall₂ (fun a b => f a = .ok b) l bs
  | [], bs => by
    rw [List.mapM_nil, List.forall₂_nil_left_iff]
    exact ⟨fun h => by cases h; rfl, fun h => by rw [h]; rfl⟩
  | a :: l, bs => by
    rw [List.mapM_cons, List.forall₂_cons_left_iff]
    constructor
    · intro h
      obtain ⟨b, hb, h⟩ := bind_eq_ok_iff.mp h
      obtain ⟨rest, hrest, h⟩ := bind_eq_ok_iff.mp h
      cases h
      exact ⟨b, rest, hb, mapM_eq_ok_iff.mp hrest, rfl⟩
    · rintro ⟨b, rest, hb, hrest, rfl⟩
      exact bind_eq_ok_iff.mpr ⟨b, hb, bind_eq_ok_iff.mpr ⟨rest, mapM_eq_ok_iff.mpr hrest, rfl⟩⟩

theorem exists_mapM_eq_ok {f : α → Except ε β} : ∀ {l : List α},
    (∀ a ∈ l, ∃ b, f a = .ok b) → ∃ bs, l.mapM f = .ok bs
  | [], _ => ⟨[], rfl⟩
  | a :: l, h => by
    obtain ⟨b, hb⟩ := h a List.mem_cons_self
    obtain ⟨bs, hbs⟩ := exists_mapM_eq_ok fun x hx => h x (List.mem_cons_of_mem a hx)
    exact ⟨b :: bs, mapM_eq_ok_iff.mpr (.cons hb (mapM_eq_ok_iff.mp hbs))⟩

/-- What every result of a computation in a list has, every result of the list has. -/
theorem forall_mem_of_mapM {f : α → Except ε β} {P : β → Prop} : ∀ {l : List α} {bs : List β},
    l.mapM f = .ok bs → (∀ a ∈ l, ∀ b, f a = .ok b → P b) → ∀ b ∈ bs, P b
  | [], bs, h, _ => by
    cases h
    exact fun b hb => absurd hb List.not_mem_nil
  | a :: l, bs, h, hl => by
    obtain ⟨b, rest, hb, hrest, rfl⟩ := List.forall₂_cons_left_iff.mp (mapM_eq_ok_iff.mp h)
    intro c hc
    rcases List.mem_cons.mp hc with rfl | hc
    · exact hl a List.mem_cons_self c hb
    · exact forall_mem_of_mapM (mapM_eq_ok_iff.mpr hrest)
        (fun x hx => hl x (List.mem_cons_of_mem a hx)) c hc

/-- A list of computations fails with the error of the first of them that fails. -/
theorem mapM_eq_error_iff {f : α → Except ε β} : ∀ {l : List α} {e : ε},
    l.mapM f = .error e ↔ ∃ k, ∃ hk : k < l.length, f l[k] = .error e ∧
      ∀ j (hj : j < k), ∃ b, f l[j] = .ok b
  | [], e => by
    constructor
    · intro h
      cases h
    · rintro ⟨k, hk, _⟩
      exact absurd hk (Nat.not_lt_zero k)
  | a :: l, e => by
    rw [List.mapM_cons]
    cases ha : f a with
    | error e' =>
      constructor
      · intro h
        cases h
        exact ⟨0, Nat.zero_lt_succ _, ha, fun j hj => absurd hj (Nat.not_lt_zero j)⟩
      · rintro ⟨_ | k, hk, herror, hbefore⟩
        · cases ha.symm.trans herror
          rfl
        · obtain ⟨b, hb⟩ := hbefore 0 (Nat.zero_lt_succ k)
          cases ha.symm.trans hb
    | ok b =>
      have hrest : (l.mapM f >>= fun bs => pure (b :: bs)) = .error e ↔ l.mapM f = .error e := by
        cases l.mapM f <;> simp [bind, Except.bind, pure, Except.pure]
      refine hrest.trans (mapM_eq_error_iff.trans ?_)
      constructor
      · rintro ⟨k, hk, herror, hbefore⟩
        refine ⟨k + 1, Nat.succ_lt_succ hk, herror, ?_⟩
        rintro (_ | j) hj
        · exact ⟨b, ha⟩
        · exact hbefore j (Nat.lt_of_succ_lt_succ hj)
      · rintro ⟨_ | k, hk, herror, hbefore⟩
        · cases ha.symm.trans herror
        · exact ⟨k, Nat.lt_of_succ_lt_succ hk, herror,
            fun j hj => hbefore (j + 1) (Nat.succ_lt_succ hj)⟩

theorem mapM_congr_of_mem {f g : α → Except ε β} : ∀ {l : List α},
    (∀ a ∈ l, f a = g a) → l.mapM f = l.mapM g
  | [], _ => rfl
  | a :: l, h => by
    rw [List.mapM_cons, List.mapM_cons, h a List.mem_cons_self,
      mapM_congr_of_mem fun x hx => h x (List.mem_cons_of_mem a hx)]

theorem mapM_congr_of_forall₂ {f : α → Except ε γ} {g : β → Except ε γ} :
    ∀ {as : List α} {bs : List β}, List.Forall₂ (fun a b => f a = g b) as bs →
    as.mapM f = bs.mapM g
  | [], [], _ => rfl
  | a :: as, b :: bs, .cons h hrest => by
    rw [List.mapM_cons, List.mapM_cons, h, mapM_congr_of_forall₂ hrest]

/-! ## Lifting -/

theorem liftM_fault_eq_ok_iff {x : Except Fault α} {a : α} :
    (liftM x : Except Error α) = .ok a ↔ x = .ok a := by
  cases x <;> simp

theorem liftM_conflict_eq_ok_iff {x : Except Conflict α} {a : α} :
    (liftM x : Except Error α) = .ok a ↔ x = .ok a := by
  cases x <;> simp

/-! ## Computations that end alike -/

/-- Both computations fail with the same error, or both succeed and `R` relates their results. -/
def SameOutcome (R : α → β → Prop) : Except ε α → Except ε β → Prop
  | .ok a, .ok b => R a b
  | .error e, .error e' => e = e'
  | _, _ => False

theorem SameOutcome.refl {R : α → α → Prop} (hR : ∀ a, R a a) (x : Except ε α) :
    SameOutcome R x x := by
  cases x with
  | error e => exact rfl
  | ok a => exact hR a

theorem SameOutcome.imp {R S : α → β → Prop} (hRS : ∀ a b, R a b → S a b) {x : Except ε α}
    {y : Except ε β} (h : SameOutcome R x y) : SameOutcome S x y := by
  cases x with
  | error e =>
    cases y with
    | error e' => exact h
    | ok b => exact absurd h id
  | ok a =>
    cases y with
    | error e' => exact absurd h id
    | ok b => exact hRS a b h

theorem SameOutcome.liftM_fault {R : α → β → Prop} {x : Except Fault α} {y : Except Fault β}
    (h : SameOutcome R x y) :
    SameOutcome R (liftM x : Except Error α) (liftM y : Except Error β) := by
  cases x with
  | error e =>
    cases y with
    | error e' => exact congrArg Error.fault h
    | ok b => exact absurd h id
  | ok a =>
    cases y with
    | error e' => exact absurd h id
    | ok b => exact h

/-- Computations that end alike go on alike. -/
theorem SameOutcome.bind {R : α → β → Prop} {S : γ → δ → Prop} {x : Except ε α} {y : Except ε β}
    {f : α → Except ε γ} {g : β → Except ε δ} (h : SameOutcome R x y)
    (hfg : ∀ a b, R a b → SameOutcome S (f a) (g b)) : SameOutcome S (x >>= f) (y >>= g) := by
  cases x with
  | error e =>
    cases y with
    | error e' => exact h
    | ok b => exact absurd h id
  | ok a =>
    cases y with
    | error e' => exact absurd h id
    | ok b => exact hfg a b h

end Broadcast
