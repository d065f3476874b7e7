import Mathlib.Data.Nat.Prime.Basic
import Mathlib.Data.List.Sort

/-!
Contract: the pipeline sieve. Each stage keeps the first number it receives and
passes on those of the rest that the first does not divide; the first stage is
handed `2, …, n`.

What stage `k` receives is the numbers up to `n` whose least prime factor is at
least some bound (`stream_eq_above`), so the first number it receives is the
`k`-th prime up to `n` (`head?_stream`), and a stage past the last prime receives
nothing (`stream_eq_nil_iff`).

Owns: `sift`, `stream`, `above`, `primesUpTo`.
-/

namespace Sieve

/-- A stage: the first number received, and the rest it does not divide. -/
def sift : List Nat → List Nat
  | [] => []
  | p :: rest => rest.filter fun m => m % p ≠ 0

/-- What stage `k` receives when stage 0 is handed `2, …, n`. -/
def stream (n : Nat) : Nat → List Nat
  | 0 => List.range' 2 (n - 1)
  | k + 1 => sift (stream n k)

/-- The numbers `2, …, n` whose least prime factor is at least `q`. -/
def above (n q : Nat) : List Nat :=
  (List.range' 2 (n - 1)).filter fun m => q ≤ m.minFac

/-- The primes up to `n`, in order. -/
def primesUpTo (n : Nat) : List Nat :=
  (List.range' 2 (n - 1)).filter fun m => m.Prime

theorem mem_above {n q m : Nat} : m ∈ above n q ↔ 2 ≤ m ∧ m ≤ n ∧ q ≤ m.minFac := by
  simp only [above, List.mem_filter, List.mem_range'_1, decide_eq_true_eq]
  omega

theorem mem_primesUpTo {n m : Nat} : m ∈ primesUpTo n ↔ m ≤ n ∧ m.Prime := by
  simp only [primesUpTo, List.mem_filter, List.mem_range'_1, decide_eq_true_eq]
  constructor
  · rintro ⟨⟨two, le⟩, prime⟩
    exact ⟨by omega, prime⟩
  · rintro ⟨le, prime⟩
    exact ⟨⟨prime.two_le, by omega⟩, prime⟩

theorem pairwise_above (n q : Nat) : (above n q).Pairwise (· < ·) :=
  (List.pairwise_lt_range' ..).filter _

theorem pairwise_primesUpTo (n : Nat) : (primesUpTo n).Pairwise (· < ·) :=
  (List.pairwise_lt_range' ..).filter _

theorem minFac_mem_above {n q m : Nat} (mem : m ∈ above n q) : m.minFac ∈ above n q := by
  obtain ⟨two, le, least⟩ := mem_above.mp mem
  have prime := Nat.minFac_prime (show m ≠ 1 by omega)
  refine mem_above.mpr ⟨prime.two_le, (Nat.minFac_le (by omega)).trans le, ?_⟩
  rwa [prime.minFac_eq]

/-- The first number of `above n q` is a prime at least `q`: its least prime
factor is in the list too, and no smaller. -/
theorem head_above {n q p : Nat} {rest : List Nat} (first : above n q = p :: rest) :
    p.Prime ∧ q ≤ p := by
  have mem : p ∈ above n q := by rw [first]; exact List.mem_cons_self
  obtain ⟨two, -, least⟩ := mem_above.mp mem
  have factor := minFac_mem_above mem
  have le : p ≤ p.minFac := by
    rw [first] at factor
    rcases List.mem_cons.mp factor with same | later
    · exact same.ge
    · have sorted := pairwise_above n q
      rw [first, List.pairwise_cons] at sorted
      exact (sorted.1 _ later).le
  have same : p.minFac = p := le_antisymm (Nat.minFac_le (by omega)) le
  refine ⟨?_, same ▸ least⟩
  rw [← same]
  exact Nat.minFac_prime (by omega)

/-- **One stage.** Past its first number `p`, the stage passes on exactly the
numbers whose least prime factor is above `p`. -/
theorem sift_above {n q p : Nat} {rest : List Nat} (first : above n q = p :: rest) :
    sift (above n q) = above n (p + 1) := by
  obtain ⟨prime, le⟩ := head_above first
  have sorted := pairwise_above n q
  rw [first, List.pairwise_cons] at sorted
  rw [first, sift]
  apply (sorted.2.filter _).eq_of_mem_iff (pairwise_above n (p + 1))
  intro m
  simp only [List.mem_filter, decide_eq_true_eq, ne_eq, ← Nat.dvd_iff_mod_eq_zero, mem_above]
  constructor
  · rintro ⟨later, apart⟩
    have mem : m ∈ above n q := by rw [first]; exact List.mem_cons_of_mem _ later
    obtain ⟨two, bound, least⟩ := mem_above.mp mem
    -- the least prime factor of `m` is in the list, so at least `p`, and not `p`
    have factor := minFac_mem_above mem
    rw [first] at factor
    have atLeast : p ≤ m.minFac := by
      rcases List.mem_cons.mp factor with same | later'
      · exact same.ge
      · exact (sorted.1 _ later').le
    have differ : m.minFac ≠ p := fun same => apart (same ▸ Nat.minFac_dvd m)
    exact ⟨two, bound, by omega⟩
  · rintro ⟨two, bound, least⟩
    have minFacLe := Nat.minFac_le (show 0 < m by omega)
    have mem : m ∈ above n q := mem_above.mpr ⟨two, bound, by omega⟩
    rw [first] at mem
    refine ⟨?_, fun divides => ?_⟩
    · rcases List.mem_cons.mp mem with rfl | later
      · omega
      · exact later
    · have := Nat.minFac_le_of_dvd prime.two_le divides
      omega

/-- The primes of `above n q` are the primes up to `n` from `q` on. -/
theorem filter_prime_above (n q : Nat) :
    (above n q).filter (fun m => m.Prime) = (primesUpTo n).filter (q ≤ ·) := by
  apply ((pairwise_above n q).filter _).eq_of_mem_iff ((pairwise_primesUpTo n).filter _)
  intro m
  simp only [List.mem_filter, decide_eq_true_eq, mem_above, mem_primesUpTo]
  constructor
  · rintro ⟨⟨-, le, least⟩, prime⟩
    exact ⟨⟨le, prime⟩, prime.minFac_eq ▸ least⟩
  · rintro ⟨⟨le, prime⟩, least⟩
    exact ⟨⟨prime.two_le, le, prime.minFac_eq.symm ▸ least⟩, prime⟩

/-- **The stages.** Stage `k` receives the numbers whose least prime factor is at
least some `q`, and the primes from `q` on are those past the first `k`. -/
theorem stream_eq_above (n k : Nat) :
    ∃ q, stream n k = above n q ∧ (primesUpTo n).filter (q ≤ ·) = (primesUpTo n).drop k := by
  induction k with
  | zero =>
    refine ⟨0, ?_, by simp⟩
    simp [stream, above]
  | succ k ih =>
    obtain ⟨q, received, primes⟩ := ih
    cases first : above n q with
    | nil =>
      -- nothing received, and no prime left
      have none : (primesUpTo n).drop k = [] := by rw [← primes, ← filter_prime_above, first]; rfl
      refine ⟨q, by rw [stream, received, first]; rfl, ?_⟩
      rw [primes, none, ← List.drop_drop, none]
      rfl
    | cons p rest =>
      obtain ⟨prime, -⟩ := head_above first
      refine ⟨p + 1, by rw [stream, received, sift_above first], ?_⟩
      -- `p` is the first prime from `q` on; the primes past it are those of the rest
      have split : (primesUpTo n).drop k = p :: rest.filter (fun m => m.Prime) := by
        rw [← primes, ← filter_prime_above, first, List.filter_cons_of_pos (by simpa using prime)]
      have tail : (primesUpTo n).filter (p + 1 ≤ ·) = rest.filter (fun m => m.Prime) := by
        rw [← filter_prime_above, ← sift_above first, first, sift, List.filter_filter]
        apply List.filter_congr
        intro m later
        have sorted := pairwise_above n q
        rw [first, List.pairwise_cons] at sorted
        have gt := sorted.1 m later
        by_cases primeM : m.Prime
        · -- a prime past `p` is not a multiple of it
          have apart : m % p ≠ 0 := fun zero => by
            have same := (Nat.prime_dvd_prime_iff_eq prime primeM).mp (Nat.dvd_of_mod_eq_zero zero)
            omega
          simp [primeM, apart]
        · simp [primeM]
      rw [tail, ← List.drop_drop, split]
      rfl

theorem head?_stream (n k : Nat) : (stream n k).head? = (primesUpTo n)[k]? := by
  obtain ⟨q, received, primes⟩ := stream_eq_above n k
  rw [← List.head?_drop, ← primes, received]
  cases first : above n q with
  | nil => simp [← filter_prime_above, first]
  | cons p rest =>
    obtain ⟨prime, -⟩ := head_above first
    rw [← filter_prime_above, first, List.filter_cons_of_pos (by simpa using prime)]
    rfl

theorem stream_eq_nil_iff (n k : Nat) : stream n k = [] ↔ (primesUpTo n).length ≤ k := by
  rw [← List.head?_eq_none_iff, head?_stream, List.getElem?_eq_none_iff]

theorem length_primesUpTo_le (n : Nat) : (primesUpTo n).length ≤ n - 1 :=
  (List.length_filter_le _ _).trans (by simp)

/-- A stage receives at most the `n - 1` numbers `2, …, n`. -/
theorem length_stream_le (n k : Nat) : (stream n k).length ≤ n - 1 := by
  induction k with
  | zero => simp [stream]
  | succ k ih =>
    -- a stage passes on part of what follows its first number
    rw [stream]
    cases received : stream n k with
    | nil => simp [sift]
    | cons p rest =>
      rw [received, List.length_cons] at ih
      exact (List.length_filter_le _ rest).trans (by omega)

theorem mem_stream {n k m : Nat} (mem : m ∈ stream n k) : 2 ≤ m ∧ m ≤ n := by
  obtain ⟨q, received, -⟩ := stream_eq_above n k
  rw [received] at mem
  obtain ⟨two, le, -⟩ := mem_above.mp mem
  exact ⟨two, le⟩

end Sieve
