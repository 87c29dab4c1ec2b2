import Broadcast.Proofs.Building
import Broadcast.Proofs.ByteOrder

/-!
# Runs of a registry

A registry is the outcome of a history: calls to register kernels, of which some are refused. It shows
of each name the kernel that was taken last under it, and nothing else. What one call does is said
once (`register_of_registrable`, `register_of_not_registrable`); that a registry reflects its history
is kept by each call (`Reflects.register`) and so by every run (`Reflects.run`). All that can be
observed of a registry follows from it (`Reflects.describes`).

The order in which kernels are kept says nothing about the order of their names. That the names come
out increasing is due to sorting, and that they do so strictly to their being distinct
(`pairwise_names`).
-/

namespace Broadcast

/-- The kernels that a registry takes: two to four operands, of which some take part in promotion. -/
def Kernel.Registrable (k : Kernel) : Prop :=
  (2 ≤ k.arity ∧ k.arity ≤ 4) ∧ k.promoteFrom < k.arity

instance (k : Kernel) : Decidable k.Registrable :=
  inferInstanceAs (Decidable (_ ∧ _))

namespace Registry

/-- The registries that calls lead to, beginning with the empty one. -/
def Reachable (r : Registry) : Prop :=
  ∃ calls, empty.run calls = r

/-- Of the kernels in a history that a registry takes, the last one of a name. -/
def lastTaken (history : List Kernel) (name : String) : Option Kernel :=
  (history.filter fun k => k.Registrable ∧ k.name = name).getLast?

/-! ## One call -/

theorem register_of_registrable (r : Registry) {k : Kernel} (hk : k.Registrable) :
    r.register k = (.ok (r.get? k.name), r.insert k) := by
  have harity : Kernel.acceptsArity k.arity := Kernel.acceptsArity_iff.mpr hk.1
  have hpromoted : ¬ k.arity ≤ k.promoteFrom := Nat.not_le.mpr hk.2
  simp [register, harity, hpromoted]

/-- A kernel that is refused is not put under its name. -/
theorem register_of_not_registrable (r : Registry) {k : Kernel} (hk : ¬ k.Registrable) :
    ∃ fault, r.register k = (.error fault, r) := by
  by_cases harity : Kernel.acceptsArity k.arity
  · have hpromoted : k.arity ≤ k.promoteFrom :=
      Nat.not_lt.mp fun h => hk ⟨Kernel.acceptsArity_iff.mp harity, h⟩
    exact ⟨.kernelPromotion k.name k.promoteFrom k.arity, by simp [register, harity, hpromoted]⟩
  · exact ⟨.kernelArity k.name k.arity, by simp [register, harity]⟩

/-- Putting a kernel under its name changes what is found there, and nothing else. -/
theorem find?_put (k : Kernel) (name : String) (ks : List Kernel) :
    (put k ks).find? (fun held => held.name = name)
      = if k.name = name then some k else ks.find? fun held => held.name = name := by
  induction ks with
  | nil => by_cases hk : k.name = name <;> simp [put, hk]
  | cons held ks ih =>
    unfold put
    by_cases hheld : held.name = k.name
    · by_cases hk : k.name = name <;> simp [hheld, hk]
    · rw [if_neg hheld, List.find?_cons, List.find?_cons, ih]
      by_cases hk : k.name = name
      · have hname : held.name ≠ name := hk ▸ hheld
        simp [hk, hname]
      · simp [hk]

theorem get?_insert (r : Registry) (k : Kernel) (name : String) :
    (r.insert k).get? name = if k.name = name then some k else r.get? name :=
  find?_put k name r.kernels

/-! ## Histories -/

theorem lastTaken_append (history : List Kernel) (k : Kernel) (name : String) :
    lastTaken (history ++ [k]) name
      = if k.Registrable ∧ k.name = name then some k else lastTaken history name := by
  unfold lastTaken
  rw [List.filter_append]
  split <;> simp_all

/-- The kernel that was taken last under a name has that name, and was taken. -/
theorem of_lastTaken {history : List Kernel} {name : String} {k : Kernel}
    (h : lastTaken history name = some k) : k.Registrable ∧ k.name = name := by
  have hmem := List.mem_of_getLast? h
  simpa using (List.mem_filter.mp hmem).2

theorem isSome_lastTaken_iff {history : List Kernel} {name : String} :
    (lastTaken history name).isSome ↔ ∃ k ∈ history, k.Registrable ∧ k.name = name := by
  simp [lastTaken]

/-- A registry shows under each name the kernel that was taken last under it. -/
def Reflects (history : List Kernel) (r : Registry) : Prop :=
  ∀ name, r.get? name = lastTaken history name

theorem reflects_empty : Reflects [] empty := by
  intro name
  simp [get?, empty, lastTaken]

variable {history : List Kernel} {r : Registry}

theorem Reflects.register (h : Reflects history r) (k : Kernel) :
    Reflects (history ++ [k]) (r.register k).2 := by
  intro name
  rw [lastTaken_append]
  by_cases hk : k.Registrable
  · rw [register_of_registrable r hk, get?_insert, h name]
    simp [hk]
  · obtain ⟨fault, hcall⟩ := register_of_not_registrable r hk
    rw [hcall, h name]
    simp [hk]

theorem Reflects.run (h : Reflects history r) (calls : List Kernel) :
    Reflects (history ++ calls) (r.run calls) := by
  induction calls generalizing history r with
  | nil => simpa [Registry.run] using h
  | cons k calls ih => simpa [Registry.run] using ih (h.register k)

theorem reachable_standard : standard.Reachable :=
  ⟨Kernel.standard, rfl⟩

/-- What is under a name has that name, and is a kernel that a registry takes. -/
theorem Reachable.registrable (h : r.Reachable) {name : String} {k : Kernel}
    (hk : r.get? name = some k) : k.Registrable ∧ k.name = name := by
  obtain ⟨calls, rfl⟩ := h
  rw [reflects_empty.run calls name] at hk
  exact of_lastTaken hk

/-! ## Observations -/

theorem contains_eq_isSome_get? (r : Registry) (name : String) :
    r.contains name = (r.get? name).isSome :=
  List.isSome_find?.symm

theorem mem_names_iff {name : String} : name ∈ r.names ↔ (r.get? name).isSome := by
  unfold names get?
  rw [List.mem_mergeSort, List.mem_map, List.find?_isSome]
  simp

theorem pairwise_names (r : Registry) :
    r.names.Pairwise fun a b => Text.bytes a < Text.bytes b := by
  have hsorted : r.names.Pairwise fun a b => decide (a ≤ b) :=
    List.pairwise_mergeSort (by simpa using fun _ _ _ => String.le_trans)
      (by simpa using String.le_total) _
  have hdistinct : r.names.Nodup := (List.mergeSort_perm _ _).nodup_iff.mpr r.distinct
  refine hsorted.imp₂ (fun a b hle hne => Text.bytes_lt_of_lt ?_) hdistinct
  exact String.not_le.mp fun hge => hne (String.le_antisymm (by simpa using hle) hge)

theorem size_eq_length_names (r : Registry) : r.size = r.names.length := by
  simp [size, names]

/-- What a registry shows of the calls that led to it, and what another call does. -/
structure Describes (history : List Kernel) (r : Registry) : Prop where
  /-- A call is refused for the number of operands or for leaving all of them out of promotion. -/
  refused_iff : ∀ k, (∃ fault, (r.register k).1 = .error fault) ↔
    ¬ (2 ≤ k.arity ∧ k.arity ≤ 4) ∨ k.arity ≤ k.promoteFrom
  unchanged : ∀ k fault, (r.register k).1 = .error fault → (r.register k).2 = r
  replaced : ∀ k previous, (r.register k).1 = .ok previous → previous = lastTaken history k.name
  get?_eq : ∀ name, r.get? name = lastTaken history name
  contains_eq : ∀ name, r.contains name = (r.get? name).isSome
  /-- The names come in the order of their bytes, each of them once. -/
  increasing : r.names.Pairwise fun a b => Text.bytes a < Text.bytes b
  mem_names : ∀ name, name ∈ r.names ↔ ∃ k ∈ history, k.Registrable ∧ k.name = name
  size_eq : r.size = r.names.length
  stored : ∀ name k, r.get? name = some k → (2 ≤ k.arity ∧ k.arity ≤ 4) ∧ k.promoteFrom < k.arity

theorem refused_iff_not_registrable (r : Registry) (k : Kernel) :
    (∃ fault, (r.register k).1 = .error fault) ↔ ¬ k.Registrable := by
  by_cases hk : k.Registrable
  · simp [register_of_registrable r hk, hk]
  · obtain ⟨fault, hcall⟩ := register_of_not_registrable r hk
    simp [hcall, hk]

theorem Reflects.describes (h : Reflects history r) : Describes history r where
  refused_iff k := by
    rw [refused_iff_not_registrable, Kernel.Registrable]
    omega
  unchanged k fault hfault := by
    obtain ⟨fault', hcall⟩ :=
      register_of_not_registrable r ((refused_iff_not_registrable r k).mp ⟨fault, hfault⟩)
    rw [hcall]
  replaced k previous hprevious := by
    have hk : k.Registrable := by
      by_contra hk
      obtain ⟨fault, hfault⟩ := (refused_iff_not_registrable r k).mpr hk
      rw [hfault] at hprevious
      cases hprevious
    rw [register_of_registrable r hk] at hprevious
    cases hprevious
    exact h k.name
  get?_eq := h
  contains_eq := r.contains_eq_isSome_get?
  increasing := r.pairwise_names
  mem_names name := by rw [mem_names_iff, h name, isSome_lastTaken_iff]
  size_eq := r.size_eq_length_names
  stored name k hk := (of_lastTaken ((h name).symm.trans hk)).1

/--
**Every run of a registry is described by its history.** After any calls to register kernels, on the
empty registry or on the standard one, the registry holds under each name the kernel taken last under
it, where the standard kernels count as taken before. Its names are those of all kernels taken, in the
order of their bytes. The next call, whatever its kernel, is refused exactly if the number of operands
is not two to four or none of them is promoted, and then leaves all as it is; otherwise it gives back
the kernel taken last under the name.
-/
theorem runs_described (calls : List Kernel) :
    Describes calls (empty.run calls) ∧
      Describes (Kernel.standard ++ calls) (standard.run calls) := by
  have hstandard : Reflects Kernel.standard standard := reflects_empty.run Kernel.standard
  exact ⟨(reflects_empty.run calls).describes, (hstandard.run calls).describes⟩

-- A kernel that is refused does not replace the one that was taken before it.
example : ((standard.run [⟨"add", 3, 1, fun _ => true, Kernel.sum⟩,
    ⟨"add", 5, 0, fun _ => true, Kernel.sum⟩]).get? "add").map (·.arity) = some 3 := rfl

end Registry

end Broadcast
