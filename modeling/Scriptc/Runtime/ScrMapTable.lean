import Scriptc.Runtime.ScrMap

/-!
# The table of a `ScrMap` stays in order

Every live entry is reached from the bucket of its hash, and the buckets are at most half full. So
every search ends, a lookup finds the live entry of its key and nothing else, and growing and
dropping dead entries keep the live ones in their order.
-/

namespace Scriptc.Runtime.ScrMap

open List Option

open LiveMap (live)
open Probe (Buckets IsPow Reach stored)

variable {K V : Type}

/-- An entry as a slot of the ordered map. -/
def Entry.slot (e : Entry K V) : Option (K × V) := if e.live then some (e.key, e.val) else none

def slots (m : Table K V) : LiveMap.Slots K V := m.entries.map Entry.slot

variable (hash : K → ℕ)

/-- The buckets hold the indices of some entries, among them all that are live. -/
structure Indexed (entries : List (Entry K V)) (buckets : Buckets) : Prop where
  pow : IsPow buckets
  bound : ∀ e ∈ stored buckets, e < entries.length
  nodup : (stored buckets).Nodup
  reach : ∀ (e : ℕ) (x : Entry K V), entries[e]? = some x → x.live = true → Reach buckets (hash x.key) e

/-- What holds of every map between two calls. -/
structure Sound (m : Table K V) : Prop where
  indexed : m.buckets ≠ [] → Indexed hash m.entries m.buckets
  room : 2 * m.entries.length ≤ m.buckets.length
  count : m.nlive = (live (slots m)).length
  capacity : m.entries.length ≤ m.ecap

variable {hash} {m m' : Table K V}

theorem sound_new : Sound hash (new : Table K V) where
  indexed h := absurd rfl h
  room := le_refl _
  count := rfl
  capacity := le_refl _

/-! ### Slots -/

theorem slots_getElem? {e : ℕ} {x : Entry K V} (h : m.entries[e]? = some x) (hl : x.live = true) :
    (slots m)[e]? = some (some (x.key, x.val)) := by
  rw [slots, getElem?_map, h, map_some, Entry.slot, if_pos hl]

theorem mem_live {e : K × V} : e ∈ live (slots m) ↔ ∃ x ∈ m.entries, x.live = true ∧ (x.key, x.val) = e := by
  rw [live, slots, filterMap_map, mem_filterMap]
  refine exists_congr fun x => and_congr_right fun _ => ?_
  rw [Function.comp, id, Entry.slot]
  split_ifs with hx
  · rw [some.injEq]
    exact ⟨fun h => ⟨hx, h⟩, fun h => h.2⟩
  · exact iff_of_false (fun h => by cases h) fun h => hx h.1

theorem live_filter (entries : List (Entry K V)) :
    live ((entries.filter Entry.live).map Entry.slot) = live (entries.map Entry.slot) := by
  induction entries with
  | nil => rfl
  | cons e entries ih =>
    by_cases he : e.live = true
    · have hslot : e.slot = some (e.key, e.val) := if_pos he
      rw [filter_cons_of_pos he, map_cons, map_cons, hslot, LiveMap.live_some, LiveMap.live_some, ih]
    · have hslot : e.slot = none := if_neg he
      rw [filter_cons_of_neg he, map_cons, hslot, LiveMap.live_none, ih]

/-! ### Lookup -/

theorem Sound.empty_bucket (h : Sound hash m) (hb : m.buckets ≠ []) : none ∈ m.buckets := by
  have hi := h.indexed hb
  have hle := Probe.length_stored_le hi.nodup hi.bound
  have hpos := hi.pow.pos
  have hroom := h.room
  exact Probe.exists_empty (by omega)

theorem Sound.lt_buckets (h : Sound hash m) (hb : m.buckets ≠ []) : (stored m.buckets).length < m.buckets.length := by
  have hi := h.indexed hb
  have hle := Probe.length_stored_le hi.nodup hi.bound
  have hpos := hi.pow.pos
  have hroom := h.room
  omega

section

variable [DecidableEq K]

/-- The keys of the live entries are different. -/
def Different (m : Table K V) : Prop :=
  ∀ (i j : ℕ) (x y : Entry K V), m.entries[i]? = some x → m.entries[j]? = some y → x.live = true → y.live = true → x.key = y.key → i = j

/-- **A lookup ends**, with the live entry of the key, or with nothing when there is none. -/
theorem Sound.find_spec (h : Sound hash m) (hd : Different m) (key : K) :
    (∃ (e : ℕ) (x : Entry K V), find hash m key = some (some e) ∧ m.entries[e]? = some x ∧ x.live = true ∧ x.key = key) ∨
    (find hash m key = some none ∧ ∀ x ∈ m.entries, x.live = true → x.key ≠ key) := by
  by_cases hb : m.buckets = []
  · have hnil : m.entries = [] := length_eq_zero_iff.mp (by have := h.room; rw [hb, length_nil] at this; omega)
    refine .inr ⟨by rw [find, if_pos (by rw [hb]; rfl)], fun x hx => ?_⟩
    rw [hnil] at hx
    cases hx
  · have hi := h.indexed hb
    have hlen : ¬m.buckets.length = 0 := fun h0 => hb (length_eq_zero_iff.mp h0)
    rw [find, if_neg hlen]
    by_cases hex : ∃ (e : ℕ) (x : Entry K V), m.entries[e]? = some x ∧ x.live = true ∧ x.key = key
    · obtain ⟨e, x, hx, hl, hk⟩ := hex
      refine .inl ⟨e, x, Probe.find_eq_some hi.pow (h.empty_bucket hb) (hk ▸ hi.reach e x hx hl) ?_ ?_, hx, hl, hk⟩
      · rw [hx]
        simp [hl, hk]
      · intro e' he'
        cases hx' : m.entries[e']? with
        | none => simp [hx'] at he'
        | some x' =>
          simp only [hx', any_some, Bool.and_eq_true, decide_eq_true_eq] at he'
          exact hd e' e x' x hx' hx he'.1 hl (he'.2.trans hk.symm)
    · refine .inr ⟨Probe.find_eq_none hi.pow (h.empty_bucket hb) (fun e => ?_) _, fun x hx hl hk => ?_⟩
      · cases hx : m.entries[e]? with
        | none => rfl
        | some x =>
          rw [any_some, Bool.and_eq_false_iff, decide_eq_false_iff_not, ← Bool.not_eq_true, ← not_and_or]
          exact fun hh => hex ⟨e, x, hx, hh.1, hh.2⟩
      · obtain ⟨e, he⟩ := mem_iff_getElem?.mp hx
        exact hex ⟨e, x, he, hl, hk⟩

end

/-! ### Filling the table again -/

theorem fill_spec {es : List (Entry K V)} {i : ℕ} {buckets : Buckets} (hp : IsPow buckets)
    (hroom : (stored buckets).length + es.length ≤ buckets.length) (hb : ∀ e ∈ stored buckets, e < i)
    (hn : (stored buckets).Nodup) :
    ∃ buckets', fill hash es i buckets = some buckets' ∧ buckets'.length = buckets.length ∧ (stored buckets').Nodup ∧
      (∀ e ∈ stored buckets', e < i + es.length) ∧ (∀ h e, Reach buckets h e → Reach buckets' h e) ∧
      ∀ j x, es[j]? = some x → x.live = true → Reach buckets' (hash x.key) (i + j) := by
  induction es generalizing i buckets with
  | nil => exact ⟨buckets, rfl, rfl, hn, hb, fun _ _ h => h, fun j x hx => by simp at hx⟩
  | cons x es ih =>
    rw [length_cons] at hroom
    rw [fill]
    by_cases hl : x.live = true
    · rw [if_pos hl]
      obtain ⟨b₁, h₁, hlen, hreach, hkeep, hperm⟩ := Probe.insert_spec hp (by omega) (hash x.key) i
      have hstored : (stored b₁).length = (stored buckets).length + 1 := hperm.length_eq
      have hnew : i ∉ stored buckets := fun hmem => lt_irrefl i (hb i hmem)
      obtain ⟨b', hf, hlen', hn', hb', hkeep', hreach'⟩ := ih (i := i + 1) (by rw [IsPow, hlen]; exact hp)
        (by omega) (fun e he => by
          rcases mem_cons.mp (hperm.mem_iff.mp he) with rfl | he
          · omega
          · have := hb e he
            omega)
        (hperm.nodup_iff.mpr (nodup_cons.mpr ⟨hnew, hn⟩))
      refine ⟨b', by rw [h₁]; exact hf, hlen'.trans hlen, hn', fun e he => ?_, fun h e hr => hkeep' h e (hkeep h e hr), ?_⟩
      · have := hb' e he
        rw [length_cons]
        omega
      · intro j y hy hly
        cases j with
        | zero =>
          obtain rfl : x = y := some.inj hy
          exact hkeep' _ _ hreach
        | succ j =>
          have := hreach' j y hy hly
          rwa [Nat.add_assoc, Nat.add_comm 1] at this
    · rw [if_neg hl]
      obtain ⟨b', hf, hlen', hn', hb', hkeep', hreach'⟩ := ih (i := i + 1) hp (by omega)
        (fun e he => (hb e he).trans (Nat.lt_succ_self i)) hn
      refine ⟨b', hf, hlen', hn', fun e he => ?_, hkeep', ?_⟩
      · have := hb' e he
        rw [length_cons]
        omega
      · intro j y hy hly
        cases j with
        | zero =>
          obtain rfl : x = y := some.inj hy
          exact absurd hly hl
        | succ j =>
          have := hreach' j y hy hly
          rwa [Nat.add_assoc, Nat.add_comm 1] at this

theorem stored_replicate (n : ℕ) : stored (replicate n none) = [] := by
  induction n with
  | zero => rfl
  | succ n ih => exact ih

/-- The buckets are built again. -/
theorem rebuildBuckets_spec {n : ℕ} (hn : ∃ k, n = 2 ^ k) (hroom : m.entries.length ≤ n) :
    ∃ buckets, rebuildBuckets hash m n = some { m with buckets } ∧ buckets.length = n ∧ Indexed hash m.entries buckets := by
  have hlen : (replicate n (none : Option ℕ)).length = n := length_replicate
  obtain ⟨b, hf, hb, hnodup, hbound, -, hreach⟩ := @fill_spec K V hash m.entries 0 (replicate n none)
    (by rw [IsPow, hlen]; exact hn)
    (by rw [stored_replicate, hlen, length_nil, Nat.zero_add]; exact hroom)
    (by rw [stored_replicate]; exact forall_mem_nil _) (by rw [stored_replicate]; exact nodup_nil)
  refine ⟨b, by rw [rebuildBuckets, hf]; rfl, hb.trans hlen, by rw [IsPow, hb, hlen]; exact hn, ?_, hnodup, ?_⟩
  · rwa [Nat.zero_add] at hbound
  · intro e x hx hl
    have := hreach e x hx hl
    rwa [Nat.zero_add] at this

/-! ### Dropping dead entries and growing -/

/-- The map is laid out anew: its entries stay where they are, unless no iteration is open. -/
structure Relaid (hash : K → ℕ) (m m' : Table K V) : Prop where
  sound : Sound hash m'
  depth : m'.iterDepth = m.iterDepth
  entries : m'.entries = m.entries ∨ (m.iterDepth = 0 ∧ live (slots m') = live (slots m))

theorem Relaid.live (r : Relaid hash m m') : LiveMap.live (slots m') = LiveMap.live (slots m) := by
  rcases r.entries with h | h
  · rw [slots, slots, h]
  · exact h.2

theorem compact_spec (h : Sound hash m) :
    ∃ m', compact hash m = some m' ∧ Sound hash m' ∧ m'.iterDepth = m.iterDepth ∧
      LiveMap.live (slots m') = LiveMap.live (slots m) ∧ m'.ecap = m.ecap ∧ m'.entries = m.entries.filter Entry.live := by
  have hlive : LiveMap.live (slots { m with entries := m.entries.filter Entry.live }) = LiveMap.live (slots m) := live_filter _
  have hle : (m.entries.filter Entry.live).length ≤ m.entries.length := length_filter_le _ _
  have hroom := h.room
  have hcap := h.capacity
  rw [compact]
  dsimp only
  by_cases hpos : 0 < m.buckets.length
  · rw [if_pos hpos]
    have hb : m.buckets ≠ [] := length_pos_iff.mp hpos
    obtain ⟨buckets, hr, hlen, hi⟩ := @rebuildBuckets_spec K V hash { m with entries := m.entries.filter Entry.live }
      m.buckets.length (h.indexed hb).pow (show (m.entries.filter Entry.live).length ≤ _ by omega)
    refine ⟨_, hr, ⟨fun _ => hi, ?_, h.count.trans (congrArg List.length hlive.symm), hle.trans hcap⟩, rfl, hlive, rfl, rfl⟩
    show 2 * (m.entries.filter Entry.live).length ≤ buckets.length
    omega
  · rw [if_neg hpos]
    have hb : m.buckets = [] := length_eq_zero_iff.mp (by omega)
    refine ⟨_, rfl, ⟨fun h => absurd hb h, ?_, h.count.trans (congrArg List.length hlive.symm), hle.trans hcap⟩, rfl, hlive, rfl, rfl⟩
    show 2 * (m.entries.filter Entry.live).length ≤ m.buckets.length
    omega

theorem le_double {k cap need : ℕ} (hcap : 0 < cap) (h : need ≤ cap + k) : need ≤ double k cap need := by
  induction k generalizing cap with
  | zero => exact h
  | succ k ih =>
    rw [double]
    split_ifs with hlt
    · exact ih (by omega) (by omega)
    · omega

theorem double_eq (k cap need : ℕ) : ∃ j, double k cap need = cap * 2 ^ j := by
  induction k generalizing cap with
  | zero => exact ⟨0, (Nat.mul_one cap).symm⟩
  | succ k ih =>
    rw [double]
    split_ifs
    · obtain ⟨j, hj⟩ := ih (cap * 2)
      exact ⟨j + 1, by rw [hj, Nat.mul_assoc, Nat.pow_succ, Nat.mul_comm 2]⟩
    · exact ⟨0, (Nat.mul_one cap).symm⟩

theorem reclaim_spec (h : Sound hash m) : ∃ m', reclaim hash m = some m' ∧ Relaid hash m m' := by
  rw [reclaim]
  split_ifs with hc
  · obtain ⟨m', h', hs, hdepth, hlive, -⟩ := compact_spec h
    exact ⟨m', h', hs, hdepth, .inr ⟨hc.1, hlive⟩⟩
  · exact ⟨m, rfl, h, rfl, .inl rfl⟩

theorem growEntries_spec (h : Sound hash m) :
    Relaid hash m (growEntries m) ∧ (growEntries m).entries.length < (growEntries m).ecap := by
  have hcap := h.capacity
  rw [growEntries]
  by_cases hfull : m.entries.length = m.ecap
  · rw [if_pos hfull]
    have hlt : m.entries.length + 1 ≤ double (m.entries.length + 1) (if m.ecap ≠ 0 then m.ecap else 8) (m.entries.length + 1) :=
      le_double (by split_ifs <;> omega) (by split_ifs <;> omega)
    exact ⟨⟨⟨h.indexed, h.room, h.count, (Nat.le_succ _).trans hlt⟩, rfl, .inl rfl⟩, hlt⟩
  · rw [if_neg hfull]
    exact ⟨⟨h, rfl, .inl rfl⟩, by omega⟩

theorem growBuckets_spec (h : Sound hash m) :
    ∃ buckets, growBuckets hash m = some { m with buckets } ∧ Sound hash { m with buckets } ∧
      2 * (m.entries.length + 1) ≤ buckets.length := by
  rw [growBuckets]
  by_cases hfew : m.buckets.length < 2 * (m.entries.length + 1)
  · rw [if_pos hfew]
    obtain ⟨n, hn⟩ : ∃ n, double (2 * (m.entries.length + 1)) (if m.buckets.length ≠ 0 then m.buckets.length else 16)
      (2 * (m.entries.length + 1)) = n := ⟨_, rfl⟩
    have hge : 2 * (m.entries.length + 1) ≤ n := by
      rw [← hn]
      exact le_double (by split_ifs <;> omega) (by split_ifs <;> omega)
    have hpow : ∃ k, n = 2 ^ k := by
      obtain ⟨j, hj⟩ := double_eq (2 * (m.entries.length + 1)) (if m.buckets.length ≠ 0 then m.buckets.length else 16)
        (2 * (m.entries.length + 1))
      rw [← hn, hj]
      split_ifs with h0
      · obtain ⟨k, hk⟩ := (h.indexed fun hnil => h0 (by rw [hnil]; rfl)).pow
        exact ⟨k + j, by rw [hk, Nat.pow_add]⟩
      · exact ⟨4 + j, by rw [Nat.pow_add]⟩
    rw [hn]
    obtain ⟨buckets, hr, hlen, hi⟩ := @rebuildBuckets_spec K V hash m n hpow (by omega)
    refine ⟨buckets, hr, ⟨fun _ => hi, ?_, h.count, h.capacity⟩, by omega⟩
    show 2 * m.entries.length ≤ buckets.length
    omega
  · rw [if_neg hfew]
    exact ⟨m.buckets, rfl, h, by omega⟩

theorem Relaid.trans {m₁ m₂ : Table K V} (r : Relaid hash m m₁) (r' : Relaid hash m₁ m₂) : Relaid hash m m₂ := by
  refine ⟨r'.sound, r'.depth.trans r.depth, ?_⟩
  rcases r'.entries with h' | ⟨h0, hl⟩
  · rw [slots, h', ← slots]
    exact r.entries
  · exact .inr ⟨r.depth ▸ h0, hl.trans r.live⟩

/-- There is room for one more entry, and a bucket for it. -/
theorem reserveAppend_spec (h : Sound hash m) :
    ∃ m', reserveAppend hash m = some m' ∧ Relaid hash m m' ∧ m'.entries.length < m'.ecap ∧
      2 * (m'.entries.length + 1) ≤ m'.buckets.length := by
  rw [reserveAppend]
  split_ifs with hdone
  · exact ⟨m, rfl, ⟨h, rfl, .inl rfl⟩, hdone⟩
  · obtain ⟨m₁, h₁, r₁⟩ := reclaim_spec h
    obtain ⟨r₂, hcap⟩ := growEntries_spec r₁.sound
    obtain ⟨buckets, h₃, hs, hlen⟩ := growBuckets_spec r₂.sound
    rw [h₁, bind_some, h₃]
    exact ⟨_, rfl, (r₁.trans r₂).trans ⟨hs, rfl, .inl rfl⟩, hcap, hlen⟩

end Scriptc.Runtime.ScrMap
