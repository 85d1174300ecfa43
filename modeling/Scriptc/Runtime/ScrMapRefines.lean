import Scriptc.Runtime.ScrMapTable

/-!
# The operations of a `ScrMap`

Each operation of a `ScrMap` does to its entries what the machine of `LiveMap` does to its slots, with
any number of iterations open, and every loop of it ends.
-/

namespace Scriptc.Runtime.ScrMap

open List

open LiveMap (Op Res Sim live)
open Probe (Buckets IsPow Reach stored)

variable {K V : Type} {hash : K → ℕ} {m m' : Table K V}

/-! ### Changes of one entry -/

variable {x : Entry K V} {e : ℕ}

theorem slots_modify (hx : m.entries[e]? = some x) (f : Entry K V → Entry K V) :
    slots { m with entries := m.entries.modify e f } = (slots m).set e (f x).slot := by
  rw [slots, modify_eq_set_getElem?, hx]
  exact map_set

/-- The entries keep their keys, and none comes back to life. -/
theorem Indexed.mono {entries entries' : List (Entry K V)} {buckets : Buckets} (h : Indexed hash entries buckets)
    (hlen : entries'.length = entries.length)
    (hkeep : ∀ (e : ℕ) (x' : Entry K V), entries'[e]? = some x' → x'.live = true →
      ∃ x, entries[e]? = some x ∧ x.live = true ∧ x.key = x'.key) : Indexed hash entries' buckets := by
  refine ⟨h.pow, by rw [hlen]; exact h.bound, h.nodup, fun e x' hx' hl' => ?_⟩
  obtain ⟨x, hx, hl, hk⟩ := hkeep e x' hx' hl'
  rw [← hk]
  exact h.reach e x hx hl

/-- A change that keeps the key of an entry and does not bring it back to life. -/
theorem Sound.modify (h : Sound hash m) (e : ℕ) (f : Entry K V → Entry K V) (hf : ∀ x, (f x).key = x.key)
    (hlive : ∀ x, (f x).live = true → x.live = true) {n : ℕ}
    (hn : n = (live (slots { m with entries := m.entries.modify e f })).length) :
    Sound hash { m with entries := m.entries.modify e f, nlive := n } := by
  have hlen : (m.entries.modify e f).length = m.entries.length := length_modify _ _ _
  refine ⟨fun hb => (h.indexed hb).mono hlen fun i x' hx' hl => ?_, ?_, hn, ?_⟩
  · rw [List.getElem?_modify, Option.map_eq_map, Option.map_eq_some_iff] at hx'
    obtain ⟨x, hx, rfl⟩ := hx'
    refine ⟨x, hx, ?_⟩
    split_ifs at hl ⊢
    · exact ⟨hlive x hl, (hf x).symm⟩
    · exact ⟨hl, rfl⟩
  · rw [hlen]
    exact h.room
  · rw [hlen]
    exact h.capacity

variable {s : Session K V}

/-- The turns of an iteration come to the next entry. -/
theorem nextLoop_eq {k i : ℕ} (hk : m.entries.length ≤ i + k) :
    nextLoop m k i = some (LiveMap.advance ((slots m).drop i) i) := by
  have hlen : (slots m).length = m.entries.length := length_map _
  induction k generalizing i with
  | zero =>
    rw [drop_of_length_le (by omega)]
    rfl
  | succ k ih =>
    rw [nextLoop]
    by_cases hi : i < m.entries.length
    · have hslot : (slots m)[i] = m.entries[i].slot := getElem_map _
      rw [iterCount, if_pos hi, iterLive, iterAt, List.getElem?_eq_getElem hi, drop_eq_getElem_cons (by omega), hslot,
        Option.any_some, Entry.slot]
      dsimp only
      by_cases hl : m.entries[i].live = true
      · rw [if_pos hl, if_pos hl]
        rfl
      · rw [if_neg hl, if_neg hl]
        exact ih (by omega)
    · rw [iterCount, if_neg hi, drop_of_length_le (by omega)]
      rfl

theorem iterNext_of_closed {c : ℕ} (h : ∀ i, s.cursors[c]? ≠ some (some i)) : iterNext hash s c = some (s, .entry none) := by
  rw [iterNext]
  split
  · next i hi => exact absurd hi (h i)
  · rfl

theorem iterClose_of_closed {c : ℕ} (h : ∀ i, s.cursors[c]? ≠ some (some i)) : iterClose hash s c = some (s, .done) := by
  rw [iterClose]
  split
  · next i hi => exact absurd hi (h i)
  · rfl

section

variable [DecidableEq K]

/-- Keys that are what they are. -/
def plainKeys (K : Type) [DecidableEq K] : LiveMap.Keys K := ⟨id, fun a b => a = b⟩

theorem lawful_plainKeys : (plainKeys K).Lawful where
  symm h := by
    rw [plainKeys, decide_eq_true_eq] at h ⊢
    exact h.symm
  trans h h' := by
    rw [plainKeys, decide_eq_true_eq] at h h' ⊢
    exact h.trans h'
  stored _ _ := rfl

theorem different_of_distinct (h : LiveMap.Distinct (plainKeys K) (slots m)) : Different m := by
  intro i j x y hx hy hlx hly hk
  exact h.unique lawful_plainKeys (k := y.key) (slots_getElem? hx hlx) (slots_getElem? hy hly) (decide_eq_true hk)
    (decide_eq_true rfl)

variable {key : K}

/-- The slot of a live entry is the only one with its key. -/
theorem alter_slots {f : K × V → Option (K × V)} (hd : LiveMap.Distinct (plainKeys K) (slots m))
    (hx : m.entries[e]? = some x) (hl : x.live = true) (hk : x.key = key) :
    LiveMap.alter (fun a => decide (a = key)) f (slots m) = (slots m).set e (f (x.key, x.val)) := by
  have hs := slots_getElem? hx hl
  refine LiveMap.alter_eq_set hs (decide_eq_true hk) fun j e' hj hp => ?_
  exact hd.unique lawful_plainKeys (k := key) hj hs hp (decide_eq_true hk)

theorem has_slots (hx : m.entries[e]? = some x) (hl : x.live = true) (hk : x.key = key) :
    LiveMap.has (fun a => decide (a = key)) (slots m) = true := by
  rw [LiveMap.has, any_eq_true]
  exact ⟨(x.key, x.val), mem_live.mpr ⟨x, mem_of_getElem? hx, hl, rfl⟩, decide_eq_true hk⟩

theorem not_has_slots (h : ∀ x ∈ m.entries, x.live = true → x.key ≠ key) :
    LiveMap.has (fun a => decide (a = key)) (slots m) = false := by
  rw [LiveMap.has, any_eq_false]
  intro e he
  obtain ⟨x, hx, hl, rfl⟩ := mem_live.mp he
  rw [decide_eq_true_eq]
  exact h x hx hl

/-! ### The invariant -/

/-- A session and the machine. -/
structure Inv (hash : K → ℕ) (s : Session K V) (t : LiveMap.State K V) : Prop where
  sim : Sim (slots s.map) s.cursors t
  sound : Sound hash s.map
  distinct : LiveMap.Distinct (plainKeys K) (slots s.map)
  depth : s.map.iterDepth = s.cursors.countP Option.isSome

variable {t : LiveMap.State K V}

theorem Inv.closed (h : Inv hash s t) (hd : s.map.iterDepth = 0) : ∀ c ∈ s.cursors, c = none := by
  rw [h.depth, countP_eq_zero] at hd
  intro c hc
  exact Option.not_isSome_iff_eq_none.mp (hd c hc)

/-- A new layout of the map shows the same. -/
theorem Inv.relaid (h : Inv hash s t) (r : Relaid hash s.map m') : Inv hash { s with map := m' } t := by
  refine ⟨?_, r.sound, h.distinct.of_live r.live, r.depth.trans h.depth⟩
  rcases r.entries with he | ⟨h0, hl⟩
  · have hslots : slots m' = slots s.map := by rw [slots, slots, he]
    show Sim (slots m') s.cursors t
    rw [hslots]
    exact h.sim
  · exact h.sim.replace (h.closed h0) hl

/-- The value of a live entry is replaced. -/
theorem Inv.overwrite (h : Inv hash s t) (hx : s.map.entries[e]? = some x)
    (hl : x.live = true) (hk : x.key = key) (val : V) :
    Inv hash { s with map := { s.map with entries := s.map.entries.modify e (Entry.setVal val) } }
      { t with slots := LiveMap.put (fun a => decide (a = key)) val t.slots } := by
  have hslots : slots { s.map with entries := s.map.entries.modify e (Entry.setVal val) } =
      LiveMap.put (fun a => decide (a = key)) val (slots s.map) := by
    rw [slots_modify hx, LiveMap.put, alter_slots h.distinct hx hl hk, Entry.slot]
    exact congrArg _ (if_pos hl)
  refine ⟨?_, h.sound.modify e (Entry.setVal val) (fun _ => rfl) (fun _ hh => hh) ?_, ?_, h.depth⟩
  · rw [hslots]
    exact h.sim.alter
  · rw [hslots, LiveMap.length_live_put]
    exact h.sound.count
  · rw [hslots, LiveMap.distinct_iff, LiveMap.put, LiveMap.live_alter, LiveMap.alterLive_put_keys, ← LiveMap.distinct_iff]
    exact h.distinct

/-- A live entry dies. -/
theorem Inv.kill (h : Inv hash s t) (hx : s.map.entries[e]? = some x)
    (hl : x.live = true) (hk : x.key = key) :
    Inv hash
      { s with map := { s.map with
        entries := s.map.entries.modify e Entry.kill
        nlive := s.map.nlive - 1 } }
      { t with slots := LiveMap.erase (fun a => decide (a = key)) t.slots } := by
  have hslots : slots { s.map with entries := s.map.entries.modify e Entry.kill } =
      LiveMap.erase (fun a => decide (a = key)) (slots s.map) := by
    rw [slots_modify hx, LiveMap.erase, alter_slots h.distinct hx hl hk]
    rfl
  refine ⟨?_, h.sound.modify e Entry.kill (fun _ => rfl) (fun _ hh => absurd hh Bool.false_ne_true) ?_, ?_, h.depth⟩
  · show Sim (slots { s.map with entries := s.map.entries.modify e Entry.kill }) _ _
    rw [hslots]
    exact h.sim.alter
  · have hlen := LiveMap.length_live_erase (has_slots hx hl hk)
    have hcount := h.sound.count
    rw [hslots]
    omega
  · show LiveMap.Distinct _ (slots { s.map with entries := s.map.entries.modify e Entry.kill })
    rw [hslots]
    exact h.distinct.erase

/-- A new entry, where there is room for it. -/
theorem Inv.append (h : Inv hash s t) (hnew : ∀ x ∈ s.map.entries, x.live = true → x.key ≠ key)
    (hcap : s.map.entries.length < s.map.ecap) (hroom : 2 * (s.map.entries.length + 1) ≤ s.map.buckets.length) (val : V) :
    ∃ buckets, Probe.insert s.map.buckets (hash key) s.map.entries.length = some buckets ∧
      Inv hash
        { s with map := { s.map with
          entries := s.map.entries ++ [{ key, val, live := true }]
          nlive := s.map.nlive + 1
          buckets } }
        { t with slots := t.slots ++ [some (key, val)] } := by
  have hb : s.map.buckets ≠ [] := fun hnil => by rw [hnil, length_nil] at hroom; omega
  have hi := h.sound.indexed hb
  obtain ⟨buckets, hins, hlen, hreach, hkeep, hperm⟩ := Probe.insert_spec hi.pow (h.sound.lt_buckets hb) (hash key)
    s.map.entries.length
  have hslots : slots { s.map with entries := s.map.entries ++ [{ key, val, live := true }] } = slots s.map ++ [some (key, val)] :=
    map_append
  have hlength : (s.map.entries ++ [(⟨key, val, true⟩ : Entry K V)]).length = s.map.entries.length + 1 := by
    rw [length_append, length_singleton]
  refine ⟨buckets, hins, ?_, ⟨fun _ => ⟨?_, ?_, ?_, ?_⟩, ?_, ?_, ?_⟩, ?_, h.depth⟩
  · show Sim (slots { s.map with entries := s.map.entries ++ [{ key, val, live := true }] }) _ _
    rw [hslots]
    exact h.sim.append _
  · rw [IsPow, hlen]
    exact hi.pow
  · intro e he
    rw [hlength]
    rcases mem_cons.mp (hperm.mem_iff.mp he) with rfl | he
    · omega
    · have := hi.bound e he
      omega
  · refine hperm.nodup_iff.mpr (nodup_cons.mpr ⟨fun hmem => ?_, hi.nodup⟩)
    exact lt_irrefl _ (hi.bound _ hmem)
  · intro e x hx hl
    by_cases he : e < s.map.entries.length
    · rw [getElem?_append_left he] at hx
      exact hkeep _ _ (hi.reach e x hx hl)
    · have hlt : e < (s.map.entries ++ [(⟨key, val, true⟩ : Entry K V)]).length := (List.getElem?_eq_some_iff.mp hx).1
      obtain rfl : e = s.map.entries.length := by omega
      rw [getElem?_append_right (le_refl _), Nat.sub_self] at hx
      obtain rfl := Option.some.inj hx
      exact hreach
  · rw [hlength, hlen]
    exact hroom
  · show s.map.nlive + 1 = (live (slots { s.map with entries := s.map.entries ++ [{ key, val, live := true }] })).length
    rw [hslots, LiveMap.live_append, length_append, h.sound.count]
    rfl
  · rw [hlength]
    exact hcap
  · show LiveMap.Distinct _ (slots { s.map with entries := s.map.entries ++ [{ key, val, live := true }] })
    have hset := h.distinct.set lawful_plainKeys key val
    rw [LiveMap.set, show LiveMap.has ((plainKeys K).same · key) (slots s.map) = false from not_has_slots hnew,
      if_neg Bool.false_ne_true] at hset
    rw [hslots]
    exact hset

/-! ### The operations -/

theorem Inv.set (h : Inv hash s t) (key : K) (val : V) :
    ∃ m', set hash s.map key val = some m' ∧
      Inv hash { s with map := m' } { t with slots := LiveMap.set (fun a => decide (a = key)) key val t.slots } := by
  rw [ScrMap.set, LiveMap.set, ← LiveMap.has_eq h.sim.live]
  rcases h.sound.find_spec (different_of_distinct h.distinct) key with ⟨e, x, hf, hx, hl, hk⟩ | ⟨hf, hno⟩
  · rw [hf, has_slots hx hl hk, if_pos rfl]
    exact ⟨_, rfl, h.overwrite hx hl hk val⟩
  · rw [hf, not_has_slots hno, if_neg Bool.false_ne_true]
    obtain ⟨m₁, hres, r, hcap, hroom⟩ := reserveAppend_spec h.sound
    have hno₁ : ∀ x ∈ m₁.entries, x.live = true → x.key ≠ key := by
      intro x hx hl hk
      obtain ⟨y, hy, hly, heq⟩ := mem_live.mp (r.live ▸ mem_live.mpr ⟨x, hx, hl, rfl⟩)
      exact hno y hy hly ((congrArg Prod.fst heq).trans hk)
    obtain ⟨buckets, hins, hinv⟩ := (h.relaid r).append hno₁ hcap hroom val
    refine ⟨_, ?_, hinv⟩
    dsimp only [bind, Option.bind]
    rw [hres]
    dsimp only
    rw [hins]

theorem Inv.get (h : Inv hash s t) (key : K) :
    get hash s.map key = some ((LiveMap.find (fun a => decide (a = key)) t.slots).map Prod.snd) := by
  rw [ScrMap.get, ← LiveMap.find_eq h.sim.live]
  rcases h.sound.find_spec (different_of_distinct h.distinct) key with ⟨e, x, hf, hx, hl, hk⟩ | ⟨hf, hno⟩
  · rw [hf]
    dsimp only [bind, Option.bind]
    rw [hx]
    rw [LiveMap.find_eq_some (mem_live.mpr ⟨x, mem_of_getElem? hx, hl, rfl⟩) (decide_eq_true hk) fun e' he' hp => ?_]
    · rfl
    · obtain ⟨y, hy, hly, rfl⟩ := mem_live.mp he'
      obtain ⟨i, hi⟩ := mem_iff_getElem?.mp hy
      have hkey : y.key = x.key := (of_decide_eq_true hp).trans hk.symm
      obtain rfl := different_of_distinct h.distinct i e y x hi hx hly hl hkey
      rw [Option.some.inj (hi.symm.trans hx)]
  · have hnone := not_has_slots hno
    rw [hf]
    dsimp only [bind, Option.bind]
    rw [LiveMap.find_eq_none hnone]
    rfl

theorem Inv.has (h : Inv hash s t) (key : K) :
    has hash s.map key = some (LiveMap.has (fun a => decide (a = key)) t.slots) := by
  rw [ScrMap.has, ← LiveMap.has_eq h.sim.live]
  rcases h.sound.find_spec (different_of_distinct h.distinct) key with ⟨e, x, hf, hx, hl, hk⟩ | ⟨hf, hno⟩
  · rw [hf, has_slots hx hl hk]
    rfl
  · rw [hf, not_has_slots hno]
    rfl

theorem Inv.delete (h : Inv hash s t) (key : K) :
    ∃ m', delete hash s.map key = some (m', LiveMap.has (fun a => decide (a = key)) t.slots) ∧
      Inv hash { s with map := m' } { t with slots := LiveMap.erase (fun a => decide (a = key)) t.slots } := by
  rw [ScrMap.delete, ← LiveMap.has_eq h.sim.live]
  rcases h.sound.find_spec (different_of_distinct h.distinct) key with ⟨e, x, hf, hx, hl, hk⟩ | ⟨hf, hno⟩
  · rw [hf, has_slots hx hl hk]
    exact ⟨_, rfl, h.kill hx hl hk⟩
  · rw [hf, not_has_slots hno]
    refine ⟨s.map, rfl, ?_⟩
    have hnone : LiveMap.has (fun a => decide (a = key)) t.slots = false := (LiveMap.has_eq h.sim.live).symm.trans (not_has_slots hno)
    rw [LiveMap.erase, LiveMap.alter_eq_self hnone]
    exact h

theorem Inv.clear (h : Inv hash s t) : Inv hash { s with map := ScrMap.clear s.map } { t with slots := LiveMap.clear t.slots } := by
  have hkill : (s.map.entries.map Entry.kill).map Entry.slot = LiveMap.clear (slots s.map) := by
    rw [map_map, slots, LiveMap.clear, map_map]
    rfl
  have hlive : live (slots (ScrMap.clear s.map)) = [] := by
    rw [ScrMap.clear, slots]
    dsimp only
    split_ifs
    · rfl
    · rw [hkill, LiveMap.live_clear]
  have hlen : (ScrMap.clear s.map).entries.length ≤ s.map.entries.length := by
    rw [ScrMap.clear]
    dsimp only
    split_ifs
    · exact Nat.zero_le _
    · rw [length_map]
  have hdead : ∀ x ∈ (ScrMap.clear s.map).entries, ¬x.live = true := by
    rw [ScrMap.clear]
    dsimp only
    split_ifs
    · exact forall_mem_nil _
    · rw [forall_mem_map]
      exact fun _ _ => Bool.false_ne_true
  have hbuckets : (ScrMap.clear s.map).buckets = replicate s.map.buckets.length none := rfl
  refine ⟨?_, ⟨fun hb => ⟨?_, ?_, ?_, ?_⟩, ?_, ?_, ?_⟩, ?_, h.depth⟩
  · by_cases h0 : s.map.iterDepth = 0
    · exact h.sim.clear.replace (h.closed h0) (hlive.trans (LiveMap.live_clear _).symm)
    · have hslots : slots (ScrMap.clear s.map) = LiveMap.clear (slots s.map) := by
        rw [ScrMap.clear, slots]
        dsimp only
        rw [if_neg h0, hkill]
      rw [hslots]
      exact h.sim.clear
  · have hne : s.map.buckets ≠ [] := fun hnil => hb (by rw [hbuckets, hnil]; rfl)
    rw [hbuckets, IsPow, length_replicate]
    exact (h.sound.indexed hne).pow
  · rw [hbuckets, stored_replicate]
    exact forall_mem_nil _
  · rw [hbuckets, stored_replicate]
    exact nodup_nil
  · exact fun e x hx hl => absurd hl (hdead x (mem_of_getElem? hx))
  · rw [hbuckets, length_replicate]
    exact (Nat.mul_le_mul_left 2 hlen).trans h.sound.room
  · rw [hlive]
    rfl
  · exact hlen.trans h.sound.capacity
  · rw [LiveMap.Distinct, hlive]
    exact .nil

/-! ### Iteration -/

theorem Inv.opened (h : Inv hash s t) :
    Inv hash { map := iterEnter s.map, cursors := s.cursors ++ [some 0] } { t with cursors := t.cursors ++ [some 0] } := by
  refine ⟨h.sim.opened, ⟨h.sound.indexed, h.sound.room, h.sound.count, h.sound.capacity⟩, h.distinct, ?_⟩
  rw [iterEnter, countP_append, ← h.depth]
  rfl

/-- An iteration that is open is left. -/
theorem Inv.exit (h : Inv hash s t) {c i : ℕ} (hc : s.cursors[c]? = some (some i)) :
    ∃ m', iterExit hash s.map = some m' ∧
      Inv hash { map := m', cursors := s.cursors.set c none } { t with cursors := t.cursors.set c none } := by
  have hcount : (s.cursors.set c none).countP Option.isSome = s.map.iterDepth - 1 := h.depth ▸ LiveMap.countP_moved hc none
  have hleft : Inv hash { map := { s.map with iterDepth := s.map.iterDepth - 1 }, cursors := s.cursors.set c none }
      { t with cursors := t.cursors.set c none } :=
    ⟨h.sim.closed c, ⟨h.sound.indexed, h.sound.room, h.sound.count, h.sound.capacity⟩, h.distinct, hcount.symm⟩
  rw [iterExit]
  split_ifs with hc
  · obtain ⟨m', h', hs, hdepth, hlive, -⟩ := compact_spec hleft.sound
    exact ⟨m', h', hleft.relaid ⟨hs, hdepth, .inr ⟨hc.1, hlive⟩⟩⟩
  · exact ⟨_, rfl, hleft⟩

theorem Inv.iterNext (h : Inv hash s t) (c : ℕ) :
    ∃ s', iterNext hash s c = some (s', (LiveMap.next t c).2) ∧ Inv hash s' (LiveMap.next t c).1 := by
  rcases h.sim.cursor c with ⟨i, j, hi, hj, hat⟩ | ⟨hi, hj⟩
  · have hloop : nextLoop s.map (iterCount s.map) i = some (LiveMap.advance ((slots s.map).drop i) i) :=
      nextLoop_eq (Nat.le_add_left _ _)
    rw [ScrMap.iterNext, LiveMap.next, hi, hj]
    dsimp only
    rw [hloop]
    rcases hat.next with ⟨h1, h2⟩ | ⟨e, i', j', h1, h2, hat'⟩
    · rw [h1, h2]
      obtain ⟨m', hm', hinv⟩ := h.exit hi
      refine ⟨{ map := m', cursors := s.cursors.set c none }, ?_, hinv⟩
      dsimp only [bind, Option.bind]
      rw [hm']
    · rw [h1, h2]
      refine ⟨{ s with cursors := s.cursors.set c (some i') }, rfl, h.sim.moved c hat', h.sound, h.distinct, ?_⟩
      rw [LiveMap.countP_moved hi, h.depth]
      exact (Nat.sub_add_cancel (LiveMap.countP_open hi)).symm
  · rw [iterNext_of_closed hi, LiveMap.next_of_closed hj]
    exact ⟨s, rfl, h⟩

theorem Inv.iterClose (h : Inv hash s t) (c : ℕ) :
    ∃ s', iterClose hash s c = some (s', .done) ∧ Inv hash s' { t with cursors := t.cursors.set c none } := by
  rcases h.sim.cursor c with ⟨i, j, hi, hj, hat⟩ | ⟨hi, hj⟩
  · obtain ⟨m', hm', hinv⟩ := h.exit hi
    refine ⟨{ map := m', cursors := s.cursors.set c none }, ?_, hinv⟩
    rw [ScrMap.iterClose, hi]
    dsimp only [bind, Option.bind]
    rw [hm']
  · rw [iterClose_of_closed hi, LiveMap.set_none_of_closed hj]
    exact ⟨s, rfl, h⟩

end

end Scriptc.Runtime.ScrMap
