import Mathlib.Algebra.Order.Group.Nat
import Mathlib.Data.List.Perm.Subperm
import Mathlib.Data.List.ReduceOption
import Mathlib.Data.Nat.Find

/-!
# Linear probing

A table of buckets, each of them empty or with the index of something that is stored elsewhere. The
number of buckets is a power of two, and a search begins at the bucket of a hash and goes round from
one bucket to the next. It ends when there is an empty bucket (`probe_isSome`), and it finds an index
that was put in by `insert`, as no bucket is emptied.
-/

namespace Probe

open List Option

abbrev Buckets := List (Option ℕ)

/-- The first bucket from `i` on where the search stops, within so many turns. -/
def probe (buckets : Buckets) (stop : Option ℕ → Bool) : ℕ → ℕ → Option ℕ
  | 0, _ => none
  | k + 1, i => if stop (buckets[i]?.getD none) then some i else probe buckets stop k ((i + 1) &&& (buckets.length - 1))

variable {buckets : Buckets}

/-- The bucket that the search looks at in turn `d`. -/
def seat (buckets : Buckets) (hash d : ℕ) : ℕ := (hash + d) % buckets.length

def seen (buckets : Buckets) (hash d : ℕ) : Option ℕ := buckets[seat buckets hash d]?.getD none

/-- The index stands in a bucket that the search comes to before an empty one. -/
def Reach (buckets : Buckets) (hash e : ℕ) : Prop :=
  ∃ d < buckets.length, seen buckets hash d = some e ∧ ∀ d' < d, seen buckets hash d' ≠ none

/-- The number of buckets is a power of two. -/
def IsPow (buckets : Buckets) : Prop := ∃ k, buckets.length = 2 ^ k

theorem IsPow.pos (h : IsPow buckets) : 0 < buckets.length := by
  obtain ⟨k, hk⟩ := h
  rw [hk]
  exact Nat.two_pow_pos k

theorem IsPow.and_mask (h : IsPow buckets) (i : ℕ) : i &&& (buckets.length - 1) = i % buckets.length := by
  obtain ⟨k, hk⟩ := h
  rw [hk, Nat.and_two_pow_sub_one_eq_mod]

theorem seat_lt (h : 0 < buckets.length) (hash d : ℕ) : seat buckets hash d < buckets.length := Nat.mod_lt _ h

theorem seat_zero (h : IsPow buckets) (hash : ℕ) : hash &&& (buckets.length - 1) = seat buckets hash 0 := by
  rw [h.and_mask, seat, Nat.add_zero]

theorem seat_succ (h : IsPow buckets) (hash d : ℕ) :
    (seat buckets hash d + 1) &&& (buckets.length - 1) = seat buckets hash (d + 1) := by
  rw [h.and_mask, seat, seat, Nat.mod_add_mod, Nat.add_assoc]

/-- The search stops at the first bucket where it can. -/
theorem probe_eq (h : IsPow buckets) {stop : Option ℕ → Bool} {hash d k i : ℕ} (hk : d < k)
    (hstop : stop (seen buckets hash (i + d)) = true) (hgo : ∀ d' < d, stop (seen buckets hash (i + d')) = false) :
    probe buckets stop k (seat buckets hash i) = some (seat buckets hash (i + d)) := by
  induction d generalizing k i with
  | zero =>
    obtain ⟨k, rfl⟩ : ∃ k', k = k' + 1 := ⟨k - 1, by omega⟩
    rw [probe]
    exact if_pos hstop
  | succ d ih =>
    obtain ⟨k, rfl⟩ : ∃ k', k = k' + 1 := ⟨k - 1, by omega⟩
    have h0 : ¬stop (buckets[seat buckets hash i]?.getD none) = true := by
      have := hgo 0 (Nat.succ_pos d)
      rw [Nat.add_zero] at this
      rw [← seen, this]
      exact Bool.false_ne_true
    rw [probe, if_neg h0, seat_succ h]
    have hshift : ∀ d', i + 1 + d' = i + (d' + 1) := fun d' => by omega
    rw [ih (by omega) (by rw [hshift]; exact hstop) fun d' hd' => by rw [hshift]; exact hgo (d' + 1) (by omega), hshift]

/-- Every bucket has its turn. -/
theorem exists_turn {i : ℕ} (hi : i < buckets.length) (hash : ℕ) : ∃ d < buckets.length, seat buckets hash d = i := by
  have hpos : 0 < buckets.length := by omega
  have hlt := Nat.mod_lt hash hpos
  refine ⟨(i + (buckets.length - hash % buckets.length)) % buckets.length, Nat.mod_lt _ hpos, ?_⟩
  rw [seat, Nat.add_mod_mod, ← Nat.mod_add_mod]
  have hsum : hash % buckets.length + (i + (buckets.length - hash % buckets.length)) = i + buckets.length := by omega
  rw [hsum, Nat.add_mod_right, Nat.mod_eq_of_lt hi]

/-- With an empty bucket every search that stops there ends, at the first bucket where it can. -/
theorem probe_of_empty (h : IsPow buckets) (hempty : none ∈ buckets) (stop : Option ℕ → Bool) (hnone : stop none = true) (hash : ℕ) :
    ∃ d < buckets.length, probe buckets stop buckets.length (hash &&& (buckets.length - 1)) = some (seat buckets hash d) ∧
      stop (seen buckets hash d) = true ∧ ∀ d' < d, stop (seen buckets hash d') = false := by
  obtain ⟨i, hi, hx⟩ := mem_iff_getElem.mp hempty
  obtain ⟨d₀, hd₀, rfl⟩ := exists_turn hi hash
  have hex : ∃ d, stop (seen buckets hash d) = true :=
    ⟨d₀, by rw [seen, getElem?_eq_getElem hi, hx]; exact hnone⟩
  have hmin : ∀ d' < Nat.find hex, stop (seen buckets hash d') = false := fun d' hd' =>
    Bool.eq_false_iff.mpr (Nat.find_min hex hd')
  have hlt : Nat.find hex < buckets.length := by
    refine lt_of_le_of_lt (Nat.find_min' hex ?_) hd₀
    rw [seen, getElem?_eq_getElem hi, hx]
    exact hnone
  refine ⟨Nat.find hex, hlt, ?_, Nat.find_spec hex, hmin⟩
  have hp := @probe_eq buckets h stop hash _ _ 0 hlt (by rw [Nat.zero_add]; exact Nat.find_spec hex)
    fun d' hd' => by rw [Nat.zero_add]; exact hmin d' hd'
  rw [seat_zero h, hp, Nat.zero_add]

/-! ### Looking for an index -/

/-- The index of the first bucket from the hash on that is empty or a hit. -/
def find (buckets : Buckets) (hit : ℕ → Bool) (hash : ℕ) : Option (Option ℕ) :=
  (probe buckets (Option.all hit) buckets.length (hash &&& (buckets.length - 1))).map fun i => buckets[i]?.getD none

/-- The only hit is found, if it is reached. -/
theorem find_eq_some (h : IsPow buckets) (hempty : none ∈ buckets) {hit : ℕ → Bool} {hash e : ℕ} (hr : Reach buckets hash e)
    (he : hit e = true) (honly : ∀ e', hit e' = true → e' = e) : find buckets hit hash = some (some e) := by
  obtain ⟨d, -, hp, hstop, hgo⟩ := probe_of_empty h hempty (Option.all hit) rfl hash
  obtain ⟨d', -, hat, hbefore⟩ := hr
  rw [find, hp, map_some, ← seen]
  congr 1
  rcases Nat.lt_trichotomy d d' with hlt | rfl | hlt
  · cases hx : seen buckets hash d with
    | none => exact absurd hx (hbefore d hlt)
    | some e' =>
      rw [hx] at hstop
      rw [honly e' hstop]
  · exact hat
  · have := hgo d' hlt
    rw [hat, all_some, he] at this
    cases this

/-- Without a hit nothing is found. -/
theorem find_eq_none (h : IsPow buckets) (hempty : none ∈ buckets) {hit : ℕ → Bool} (hno : ∀ e, hit e = false) (hash : ℕ) :
    find buckets hit hash = some none := by
  obtain ⟨d, -, hp, hstop, -⟩ := probe_of_empty h hempty (Option.all hit) rfl hash
  rw [find, hp, map_some, ← seen]
  congr 1
  cases hx : seen buckets hash d with
  | none => rfl
  | some e =>
    rw [hx, all_some, hno e] at hstop
    cases hstop

/-! ### Putting an index in -/

/-- Into the first empty bucket from the hash on. -/
def insert (buckets : Buckets) (hash e : ℕ) : Option Buckets :=
  (probe buckets isNone buckets.length (hash &&& (buckets.length - 1))).map fun i => buckets.set i (some e)

/-- The indices in the table. -/
def stored (buckets : Buckets) : List ℕ := buckets.reduceOption

/-- With fewer indices than buckets there is an empty one. -/
theorem exists_empty (h : (stored buckets).length < buckets.length) : none ∈ buckets := by
  by_contra hn
  have hlen : (stored buckets).length = buckets.length := by
    rw [stored, reduceOption_length_eq_iff]
    intro b hb
    cases b with
    | none => exact absurd hb hn
    | some e => rfl
  omega

/-- Different indices below a bound are at most that many. -/
theorem length_stored_le {n : ℕ} (hd : (stored buckets).Nodup) (hlt : ∀ e ∈ stored buckets, e < n) :
    (stored buckets).length ≤ n := by
  have hsub : stored buckets ⊆ List.range n := fun e he => mem_range.mpr (hlt e he)
  have hle := (subperm_of_subset hd hsub).length_le
  rwa [length_range] at hle

/-- **An index is put in**: it is reached from its hash, and those that were reached still are. -/
theorem insert_spec (h : IsPow buckets) (hroom : (stored buckets).length < buckets.length) (hash e : ℕ) :
    ∃ buckets', insert buckets hash e = some buckets' ∧ buckets'.length = buckets.length ∧ Reach buckets' hash e ∧
      (∀ hash' e', Reach buckets hash' e' → Reach buckets' hash' e') ∧ (stored buckets').Perm (e :: stored buckets) := by
  obtain ⟨d, hd, hp, hstop, hgo⟩ := probe_of_empty h (exists_empty hroom) isNone rfl hash
  have hlt := seat_lt h.pos hash d
  have hx : buckets[seat buckets hash d] = none := by
    rw [seen, getElem?_eq_getElem hlt] at hstop
    exact isNone_iff_eq_none.mp hstop
  have hlen : (buckets.set (seat buckets hash d) (some e)).length = buckets.length := length_set
  have hseat : ∀ hash' d', seat (buckets.set (seat buckets hash d) (some e)) hash' d' = seat buckets hash' d' := by
    intro hash' d'
    exact congrArg ((hash' + d') % ·) hlen
  have hseen : ∀ hash' d', seen (buckets.set (seat buckets hash d) (some e)) hash' d' =
      if seat buckets hash' d' = seat buckets hash d then some e else seen buckets hash' d' := by
    intro hash' d'
    rw [seen, hseat, seen]
    split_ifs with heq
    · rw [heq, List.getElem?_set_self hlt]
      rfl
    · rw [List.getElem?_set_ne (Ne.symm heq)]
  refine ⟨buckets.set (seat buckets hash d) (some e), by rw [insert, hp]; rfl, hlen, ?_, ?_, ?_⟩
  · refine ⟨d, by rw [hlen]; exact hd, by rw [hseen, if_pos rfl], fun d' hd' => ?_⟩
    rw [hseen]
    split_ifs
    · exact some_ne_none e
    · exact isNone_eq_false_iff.mp (hgo d' hd') |> isSome_iff_ne_none.mp
  · rintro hash' e' ⟨d', hd', hat, hbefore⟩
    refine ⟨d', by rw [hlen]; exact hd', ?_, fun d'' hd'' => ?_⟩
    · rw [hseen, if_neg, hat]
      intro heq
      rw [seen, heq, getElem?_eq_getElem hlt, hx] at hat
      cases hat
    · rw [hseen]
      split_ifs
      · exact some_ne_none e
      · exact hbefore d'' hd''
  · have hperm := (set_perm_cons_eraseIdx hlt (some e)).filterMap id
    have hold := (getElem_cons_eraseIdx_perm hlt).filterMap id
    rw [hx] at hold
    exact hperm.trans (List.Perm.cons e hold)

end Probe
