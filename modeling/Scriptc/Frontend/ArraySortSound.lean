import Scriptc.Frontend.ArraySort
import Scriptc.Lib.MergeRuns
import Scriptc.Num.Order

/-!
# The generated sort is a stable sort

The loops write runs of values into a buffer, each run right after the one before. A buffer is
seen through the list of values that it holds from its start, and a loop is specified by the list
that it writes (`blit`). Reads stay within that list, whatever the comparator answers.
-/

namespace Scriptc.Frontend

open MergeRuns List

variable {W X V B E R σ α β : Type}

/-! ### Runs that do not trap -/

/-- The run does not trap and its result is as described; it throws only if `T`, and what the
comparator keeps is kept. -/
def Meets (T : Prop) (I : W → Prop) (m : Sorting W X α) (Q : α → Prop) : Prop := ∀ w, I w →
  match m.run w with
  | (.ok a, w') => I w' ∧ Q a
  | (.error (.throw _), w') => I w' ∧ T
  | (.error .trap, _) => False

namespace Meets

variable {T : Prop} {I : W → Prop} {m : Sorting W X α} {Q Q' : α → Prop}

theorem pure {a : α} (h : Q a) : Meets T I (Pure.pure a : Sorting W X α) Q := fun _ hw => ⟨hw, h⟩

theorem bind {g : α → Sorting W X β} {P : β → Prop} (hm : Meets T I m Q) (hg : ∀ a, Q a → Meets T I (g a) P) :
    Meets T I (m >>= g) P := by
  intro w hw
  have h := hm w hw
  have hrun : (m >>= g).run w = ExceptT.bindCont g (m.run w).1 (m.run w).2 := rfl
  rw [hrun]
  cases hr : m.run w with
  | mk r w' =>
    rw [hr] at h
    cases r with
    | ok a => exact hg a h.2 w' h.1
    | error e =>
      cases e with
      | throw x => exact h
      | trap => exact h

theorem mono (hm : Meets T I m Q) (h : ∀ a, Q a → Q' a) : Meets T I m Q' := by
  intro w hw
  have := hm w hw
  cases hr : m.run w with
  | mk r w' =>
    rw [hr] at this
    cases r with
    | ok a => exact ⟨this.1, h a this.2⟩
    | error e =>
      cases e with
      | throw x => exact this
      | trap => exact this

theorem cases {w : W} (hm : Meets T I m Q) (hw : I w) : (∃ a w', m.run w = (.ok a, w') ∧ I w' ∧ Q a) ∨
    ∃ x w', m.run w = (.error (.throw x), w') ∧ I w' ∧ T := by
  have h := hm w hw
  cases hr : m.run w with
  | mk r w' =>
    rw [hr] at h
    cases r with
    | ok a => exact .inl ⟨a, w', rfl, h⟩
    | error e =>
      cases e with
      | throw x => exact .inr ⟨x, w', rfl, h⟩
      | trap => exact h.elim

theorem orTrap {o : Option α} {a : α} (h : o = some a) : Meets T I (orTrap o : Sorting W X α) (a = ·) := by
  rw [h]
  exact .pure rfl

end Meets

theorem run_bind_ok {m : Sorting W X α} {g : α → Sorting W X β} {a : α} {w w' : W} (h : m.run w = (.ok a, w')) :
    (m >>= g).run w = (g a).run w' := by
  have hrun : (m >>= g).run w = ExceptT.bindCont g (m.run w).1 (m.run w).2 := rfl
  rw [hrun, h]
  rfl

theorem run_bind_throw {m : Sorting W X α} {g : α → Sorting W X β} {x : X} {w w' : W}
    (h : m.run w = (.error (.throw x), w')) : (m >>= g).run w = (.error (.throw x), w') := by
  have hrun : (m >>= g).run w = ExceptT.bindCont g (m.run w).1 (m.run w).2 := rfl
  rw [hrun, h]
  rfl

/-! ### What a loop writes -/

/-- The list with a part overwritten, or grown by it. -/
def blit (l : List V) (k : ℕ) (zs : List V) : List V := l.take k ++ zs ++ l.drop (k + zs.length)

/-- The part of a list from one index to another. -/
def seg (l : List V) (i j : ℕ) : List V := (l.take j).drop i

variable {l zs zs' vs ss ds : List V} {i j k n : ℕ} {v : V}

@[simp] theorem blit_nil : blit l k [] = l := by simp [blit]

theorem blit_length : blit l l.length zs = l ++ zs := by
  rw [blit, take_length, drop_eq_nil_of_le (by omega), append_nil]

theorem length_blit (hk : k ≤ l.length) : (blit l k zs).length = max l.length (k + zs.length) := by
  simp only [blit, length_append, length_take, length_drop]
  omega

theorem succ_le_length_blit (hk : k ≤ l.length) : k + 1 ≤ (blit l k [v]).length := by
  rw [length_blit hk, length_singleton]
  omega

/-- One part after the other. -/
theorem blit_blit (zs zs' : List V) (hk : k ≤ l.length) : blit (blit l k zs) (k + zs.length) zs' = blit l k (zs ++ zs') := by
  have hlen : (l.take k ++ zs).length = k + zs.length := by
    rw [length_append, length_take, Nat.min_eq_left hk]
  have htake : (blit l k zs).take (k + zs.length) = l.take k ++ zs := by
    rw [blit, ← hlen, take_left]
  have hdrop : (blit l k zs).drop (k + zs.length + zs'.length) = l.drop (k + (zs ++ zs').length) := by
    rw [blit, ← hlen, drop_length_add_append, hlen, drop_drop, length_append, Nat.add_assoc]
  rw [blit, htake, hdrop, blit, append_assoc (l.take k)]

theorem blit_cons (hk : k ≤ l.length) : blit (blit l k [v]) (k + 1) zs = blit l k (v :: zs) := blit_blit _ _ hk

theorem seg_eq_take (l : List V) (i j : ℕ) : seg l i j = (l.drop i).take (j - i) := drop_take ..

theorem seg_cons (hi : i < j) (hj : j ≤ l.length) (hv : l[i]? = some v) : seg l i j = v :: seg l (i + 1) j := by
  have hlt : i < (l.take j).length := by
    rw [length_take]
    omega
  unfold seg
  rw [drop_eq_getElem_cons hlt, getElem_take]
  congr 1
  rw [getElem?_eq_getElem (by omega)] at hv
  exact Option.some.inj hv

theorem seg_eq_nil (h : j ≤ i) : seg l i j = [] := by
  unfold seg
  rw [drop_eq_nil_of_le]
  rw [length_take]
  omega

theorem length_seg (hj : j ≤ l.length) : (seg l i j).length = j - i := by
  simp only [seg, length_drop, length_take]
  omega

theorem seg_append (h1 : i ≤ j) (h2 : j ≤ k) : seg l i j ++ seg l j k = seg l i k := by
  simp only [seg_eq_take]
  rw [show k - i = (j - i) + (k - j) by omega, take_add, drop_drop, Nat.add_sub_cancel' h1]

/-- A buffer that holds a list from its start, up to a bound. -/
structure Views (buf : Buffer B V) (n : ℕ) (view : List V → B → Prop) : Prop where
  get : ∀ {vs b i v}, view vs b → vs[i]? = some v → buf.get b i = some v
  set : ∀ {vs b k} (v : V), view vs b → k ≤ vs.length → k < n → ∃ b', buf.set b k v = some b' ∧ view (blit vs k [v]) b'

section Loops

variable {buf : Buffer B V} {view : List V → B → Prop} {takeRight : V → V → Sorting W X Bool} {T : Prop} {I : W → Prop}
  {D : V → V → Bool → Prop} {src dst : B} {left mid r right start width count : ℕ}

section

variable (hb : Views buf n view)
include hb

theorem copyRange_spec (hs : view ss src) (hd : view ds dst) (hk : k ≤ ds.length) (hr : right ≤ ss.length)
    (hn : right ≤ n) :
    Meets T I (copyRange buf src dst k right : Sorting W X B) (view (blit ds k (seg ss k right))) := by
  induction hm : right - k generalizing k dst ds with
  | zero =>
    rw [copyRange, if_neg (by omega), seg_eq_nil (by omega), blit_nil]
    exact .pure hd
  | succ m ih =>
    obtain ⟨v, hv⟩ : ∃ v, ss[k]? = some v := ⟨_, getElem?_eq_getElem (by omega)⟩
    obtain ⟨b', hset, hview⟩ := hb.set v hd hk (by omega)
    rw [copyRange, if_pos (by omega)]
    refine .bind (.orTrap (hb.get hs hv)) fun _ he => ?_
    subst he
    refine .bind (.orTrap hset) fun _ he => ?_
    subst he
    rw [seg_cons (by omega) hr hv, ← blit_cons hk]
    exact ih hview (succ_le_length_blit hk) (by omega)

theorem copyRun_spec {i stop : ℕ} (hs : view ss src) (hd : view ds dst) (hk : k ≤ ds.length) (hr : stop ≤ ss.length)
    (hn : k + (stop - i) ≤ n) :
    Meets T I (copyRun buf src dst i stop k : Sorting W X (B × ℕ))
      fun p => view (blit ds k (seg ss i stop)) p.1 ∧ p.2 = k + (stop - i) := by
  induction hm : stop - i generalizing i k dst ds with
  | zero =>
    rw [copyRun, if_neg (by omega), seg_eq_nil (by omega), blit_nil]
    exact .pure ⟨hd, rfl⟩
  | succ m ih =>
    obtain ⟨v, hv⟩ : ∃ v, ss[i]? = some v := ⟨_, getElem?_eq_getElem (by omega)⟩
    obtain ⟨b', hset, hview⟩ := hb.set v hd hk (by omega)
    rw [copyRun, if_pos (by omega)]
    refine .bind (.orTrap (hb.get hs hv)) fun _ he => ?_
    subst he
    refine .bind (.orTrap hset) fun _ he => ?_
    subst he
    rw [seg_cons (by omega) hr hv, ← blit_cons hk]
    refine (ih hview (succ_le_length_blit hk) (by omega) (by omega)).mono fun p hp => ⟨hp.1, ?_⟩
    rw [hp.2]
    omega

variable (ht : ∀ x y, Meets T I (takeRight x y) (D x y))
include ht

/-- While both runs last: what was written goes before any merge of what is left. -/
theorem mergeHeads_spec (hs : view ss src) (hd : view ds dst) (hk : k ≤ ds.length) (hmid : mid ≤ ss.length)
    (hr : right ≤ ss.length) (hn : k + (mid - left) + (right - r) ≤ n) (hl : left ≤ mid) (hrr : r ≤ right) :
    Meets T I (mergeHeads buf takeRight src dst left mid r right k) fun p =>
      ∃ zs, view (blit ds k zs) p.1 ∧ p.2.2.2 = k + zs.length ∧ p.2.1 ≤ mid ∧ p.2.2.1 ≤ right ∧
        (p.2.1 = mid ∨ p.2.2.1 = right) ∧ zs.length + (mid - p.2.1) + (right - p.2.2.1) = (mid - left) + (right - r) ∧
        ∀ rest, Merged D (seg ss p.2.1 mid) (seg ss p.2.2.1 right) rest →
          Merged D (seg ss left mid) (seg ss r right) (zs ++ rest) := by
  induction hm : (mid - left) + (right - r) generalizing left r k dst ds with
  | zero =>
    rw [mergeHeads, if_neg (by omega)]
    refine .pure ⟨[], by simpa using hd, rfl, hl, hrr, .inl ?_, ?_, fun rest hrest => hrest⟩
    · show left = mid
      omega
    · show 0 + (mid - left) + (right - r) = 0
      omega
  | succ m ih =>
    rw [mergeHeads]
    split_ifs with hgo
    · obtain ⟨x, hx⟩ : ∃ v, ss[left]? = some v := ⟨_, getElem?_eq_getElem (by omega)⟩
      obtain ⟨y, hy⟩ : ∃ v, ss[r]? = some v := ⟨_, getElem?_eq_getElem (by omega)⟩
      refine .bind (.orTrap (hb.get hs hx)) fun _ he => ?_
      subst he
      refine .bind (.orTrap (hb.get hs hy)) fun _ he => ?_
      subst he
      refine .bind (ht _ _) fun c hc => ?_
      rw [seg_cons hgo.1 hmid hx, seg_cons hgo.2 hr hy]
      cases c with
      | true =>
        obtain ⟨b', hset, hview⟩ := hb.set y hd hk (by omega)
        refine .bind (.orTrap hset) fun _ he => ?_
        subst he
        refine (ih hview (succ_le_length_blit hk) (by omega) hl (by omega) (by omega)).mono ?_
        rintro p ⟨zs, h1, h2, h3, h4, h5, h6, h7⟩
        refine ⟨y :: zs, by rwa [← blit_cons hk], ?_, h3, h4, h5, ?_, fun rest hrest => ?_⟩
        · rw [h2, length_cons]
          omega
        · rw [length_cons]
          omega
        · have := h7 rest hrest
          rw [seg_cons hgo.1 hmid hx] at this
          exact .take_right hc this
      | false =>
        obtain ⟨b', hset, hview⟩ := hb.set x hd hk (by omega)
        refine .bind (.orTrap hset) fun _ he => ?_
        subst he
        refine (ih hview (succ_le_length_blit hk) (by omega) (by omega) hrr (by omega)).mono ?_
        rintro p ⟨zs, h1, h2, h3, h4, h5, h6, h7⟩
        refine ⟨x :: zs, by rwa [← blit_cons hk], ?_, h3, h4, h5, ?_, fun rest hrest => ?_⟩
        · rw [h2, length_cons]
          omega
        · rw [length_cons]
          omega
        · have := h7 rest hrest
          rw [seg_cons hgo.2 hr hy] at this
          exact .take_left hc this
    · refine .pure ⟨[], by simpa using hd, rfl, hl, hrr, ?_, ?_, fun rest hrest => hrest⟩
      · show left = mid ∨ r = right
        omega
      · show 0 + (mid - left) + (right - r) = m + 1
        omega

theorem mergeBody_spec (hs : view ss src) (hd : view ds dst) (hk : k ≤ ds.length) (hmid : mid ≤ ss.length)
    (hr : right ≤ ss.length) (hn : k + (mid - left) + (right - r) ≤ n) (hl : left ≤ mid) (hrr : r ≤ right) :
    Meets T I (mergeBody buf takeRight src dst left mid r right k) fun d =>
      ∃ zs, Merged D (seg ss left mid) (seg ss r right) zs ∧ view (blit ds k zs) d := by
  unfold mergeBody
  refine .bind (mergeHeads_spec hb ht hs hd hk hmid hr hn hl hrr) ?_
  rintro ⟨dst, left', r', k'⟩ ⟨zs, h1, h2, h3, h4, h5, h6, h7⟩
  simp only at h1 h2 h3 h4 h5 h6 h7 ⊢
  subst h2
  have hk' : k + zs.length ≤ (blit ds k zs).length := by
    rw [length_blit hk]
    omega
  refine .bind (copyRun_spec hb hs h1 hk' hmid (by omega)) ?_
  rintro ⟨dst, k'⟩ ⟨h8, h9⟩
  simp only at h8 h9 ⊢
  subst h9
  rw [blit_blit _ _ hk] at h8
  have hk'' : k + zs.length + (mid - left') ≤ (blit ds k (zs ++ seg ss left' mid)).length := by
    rw [length_blit hk, length_append, length_seg hmid]
    omega
  refine .bind (copyRun_spec hb hs h8 hk'' hr (by omega)) ?_
  rintro ⟨dst, k'⟩ ⟨h10, -⟩
  refine .pure ⟨zs ++ (seg ss left' mid ++ seg ss r' right), h7 _ ?_, ?_⟩
  · -- one of the two runs is used up
    rcases h5 with rfl | rfl
    · rw [seg_eq_nil le_rfl, nil_append]
      exact .left_nil _
    · rw [seg_eq_nil (l := ss) (i := r') le_rfl, append_nil]
      exact .right_nil _
  · simp only at h10
    have hlen : k + zs.length + (mid - left') = k + (zs ++ seg ss left' mid).length := by
      rw [length_append, length_seg hmid]
      omega
    rwa [hlen, blit_blit _ _ hk, append_assoc] at h10

theorem mergeOrCopy_spec (hs : view ss src) (hd : view ds dst) (hk : start ≤ ds.length) (h1 : start < mid)
    (h2 : mid ≤ right) (hr : right ≤ ss.length) (hn : right ≤ n) :
    Meets T I (mergeOrCopy buf takeRight src dst start mid right) fun d =>
      ∃ zs, Joined D (seg ss start mid) (seg ss mid right) zs ∧ view (blit ds start zs) d := by
  have hcopy : Meets T I (copyRange buf src dst start right : Sorting W X B)
      (view (blit ds start (seg ss start mid ++ seg ss mid right))) := by
    rw [seg_append h1.le h2]
    exact copyRange_spec hb hs hd hk hr hn
  unfold mergeOrCopy
  split_ifs with hgo
  · obtain ⟨x, hx⟩ : ∃ v, ss[mid - 1]? = some v := ⟨_, getElem?_eq_getElem (by omega)⟩
    obtain ⟨y, hy⟩ : ∃ v, ss[mid]? = some v := ⟨_, getElem?_eq_getElem (by omega)⟩
    refine .bind (.orTrap (hb.get hs hx)) fun _ he => ?_
    subst he
    refine .bind (.orTrap (hb.get hs hy)) fun _ he => ?_
    subst he
    refine .bind (ht _ _) fun c hc => ?_
    cases c with
    | true =>
      refine (mergeBody_spec hb ht hs hd hk (by omega) hr (by omega) h1.le h2).mono ?_
      rintro d ⟨zs, hm, hv⟩
      exact ⟨zs, .merge hm, hv⟩
    | false =>
      have hlast : seg ss (mid - 1) mid = [x] := by
        rw [seg_cons (by omega) (by omega) hx, seg_eq_nil (by omega)]
      have hleft : seg ss start mid = seg ss start (mid - 1) ++ [x] := by
        rw [← hlast, seg_append (by omega) (by omega)]
      exact hcopy.mono fun d hv => ⟨_, .keep hleft (seg_cons hgo hr hy) hc, hv⟩
  · exact hcopy.mono fun d hv => ⟨_, .last (seg_eq_nil (by omega)), hv⟩

theorem mergePass_spec (hw : 0 < width) (hs : view ss src) (hd : view ds dst) (hc : ss.length = count) (hn : count ≤ n)
    (hk : start < count → start ≤ ds.length) :
    Meets T I (mergePass buf takeRight src dst width count start hw) fun d =>
      ∃ zs, Pass D width (ss.drop start) zs ∧ view (blit ds start zs) d := by
  induction hm : count - start using Nat.strong_induction_on generalizing start dst ds with
  | _ m ih =>
    rw [mergePass]
    by_cases hgo : start < count
    · rw [if_pos hgo]
      obtain ⟨mid, hmid⟩ : ∃ mid, mid = if start + width < count then start + width else count := ⟨_, rfl⟩
      obtain ⟨right, hright⟩ : ∃ right, right = if start + width + width < count then start + width + width else count :=
        ⟨_, rfl⟩
      simp only [← hmid, ← hright]
      have hm1 : mid = min (start + width) count := by rw [hmid]; split_ifs <;> omega
      have hr1 : right = min (start + width + width) count := by rw [hright]; split_ifs <;> omega
      refine .bind (mergeOrCopy_spec hb ht hs hd (hk hgo) (by omega) (by omega) (by omega) (by omega)) ?_
      rintro d ⟨zs, hj, hv⟩
      have hL : seg ss start mid = (ss.drop start).take width := by
        rw [seg_eq_take, take_eq_take_iff, length_drop]
        omega
      have hR : seg ss mid right = ((ss.drop start).drop width).take width := by
        rw [seg_eq_take, drop_drop]
        by_cases hlt : start + width < count
        · rw [show mid = start + width by omega, take_eq_take_iff, length_drop]
          omega
        · rw [drop_eq_nil_of_le (show ss.length ≤ mid by omega),
            drop_eq_nil_of_le (show ss.length ≤ start + width by omega), take_nil, take_nil]
      have hlen : zs.length = right - start := by
        rw [hj.perm.length_eq, length_append, length_seg (by omega), length_seg (by omega)]
        omega
      rw [hL, hR] at hj
      have hnext := ih (count - (start + (width + width))) (by omega) hv
        (fun h => by rw [length_blit (hk hgo)]; omega) rfl
      refine hnext.mono ?_
      rintro d ⟨zs', hp, hv'⟩
      rw [← drop_drop] at hp
      refine ⟨zs ++ zs', .join ?_ hj hp, ?_⟩
      · rw [ne_eq, drop_eq_nil_iff]
        omega
      · by_cases hlt : start + width + width < count
        · rw [← blit_blit _ _ (hk hgo), show start + zs.length = start + (width + width) by omega]
          exact hv'
        · -- nothing is left for the passes to come
          have hnil : zs' = [] := by
            have := hp.perm.length_eq
            rw [length_drop, length_drop] at this
            exact length_eq_zero_iff.mp (by omega)
          rw [hnil, blit_nil] at hv'
          rwa [hnil, append_nil]
    · rw [if_neg hgo]
      refine .pure ⟨[], ?_, by simpa using hd⟩
      rw [drop_eq_nil_of_le (by omega)]
      exact .done

theorem mergeWidths_spec (hw : 0 < width) (hs : view ss src) (hd : view ds dst) (hc : ss.length = count) (hn : count ≤ n)
    (hdl : ds.length ≤ count) :
    Meets T I (mergeWidths buf takeRight src dst width count hw) fun d => ∃ zs, Passes D width ss zs ∧ view zs d := by
  induction hm : count - width using Nat.strong_induction_on generalizing width src dst ss ds with
  | _ m ih =>
    rw [mergeWidths]
    split_ifs with hgo
    · refine .bind (mergePass_spec hb ht hw hs hd hc hn fun _ => Nat.zero_le _) ?_
      rintro d ⟨zs, hp, hv⟩
      rw [drop_zero] at hp
      have hlen : zs.length = count := by rw [hp.perm.length_eq, hc]
      have hblit : blit ds 0 zs = zs := by
        rw [blit, take_zero, nil_append, drop_eq_nil_of_le (by omega), append_nil]
      rw [hblit] at hv
      refine (ih (count - width * 2) (by omega) (by omega) hv hs hlen hc.le rfl).mono ?_
      rintro d ⟨zs', hp', hv'⟩
      exact ⟨zs', .pass hp hp', hv'⟩
    · exact .pure ⟨ss, .done (by omega), hs⟩

end

end Loops

/-! ### Arrays -/

/-- The value in a slot. -/
def Slot.value? : Slot E → Option E
  | .value v => some v
  | _ => none

/-- The values of an array, in order. -/
def values (a : Arr E) : List E := a.filterMap Slot.value?

/-- The number of its own undefined elements. -/
def undefineds (a : Arr E) : ℕ := a.countP fun s => match s with
  | .undefined => true
  | _ => false

theorem values_cons (s : Slot E) (a : Arr E) : values (s :: a) = s.value?.toList ++ values a := by
  cases s <;> rfl

theorem undefineds_cons (s : Slot E) (a : Arr E) :
    undefineds (s :: a) = undefineds a + match s with | .undefined => 1 | _ => 0 := by
  cases s <;> simp [undefineds]

theorem length_values_le (a : Arr E) : (values a).length + undefineds a ≤ a.length := by
  induction a with
  | nil => rfl
  | cons s a ih =>
    rw [values_cons, undefineds_cons, length_append, length_cons]
    cases s <;> simp [Slot.value?] <;> omega

variable {a : Arr E}

/-- A write at an index up to the length. -/
theorem setSlot_eq_blit (hk : k ≤ a.length) (s : Slot E) : setSlot a k s = blit a k [s] := by
  unfold setSlot blit
  split_ifs with hlt
  · rw [set_eq_take_append_cons_drop, if_pos hlt]
    simp
  · rw [take_of_length_le (by omega), drop_eq_nil_of_le (by rw [length_singleton]; omega),
      show k - a.length = 0 by omega]
    simp

theorem map_blit (g : V → R) : (blit l k zs).map g = blit (l.map g) k (zs.map g) := by
  simp [blit, map_take, map_drop]

theorem arrayViews : Views (arrayBuffer (E := E)) n fun vs b => b = vs.map .value where
  get := by
    rintro vs b i v rfl hv
    simp [arrayBuffer, arrayGet, hv]
  set := by
    rintro vs b k v rfl hk -
    refine ⟨_, rfl, ?_⟩
    rw [arraySet, setSlot_eq_blit (by simpa using hk), map_blit]
    rfl

theorem collect_spec {T : Prop} {I : W → Prop} (snapshot : Arr E) (vs : List E) (u : ℕ) {i : ℕ} :
    Meets T I (collect snapshot snapshot.length i (vs.map .value) vs.length u : Sorting W X _) fun p =>
      p = ((vs ++ values (snapshot.drop i)).map .value, (vs ++ values (snapshot.drop i)).length,
        u + undefineds (snapshot.drop i)) := by
  induction hm : snapshot.length - i generalizing i vs u with
  | zero =>
    rw [collect, if_neg (by omega), drop_eq_nil_of_le (by omega)]
    exact .pure (by simp [values, undefineds])
  | succ m ih =>
    have hlt : i < snapshot.length := by omega
    have hget : snapshot[i]? = some snapshot[i] := getElem?_eq_getElem hlt
    rw [collect, if_pos hlt, drop_eq_getElem_cons hlt, values_cons, undefineds_cons]
    cases hs : snapshot[i] with
    | hole =>
      rw [hs] at hget
      rw [if_neg (by simp [arrayState, hget]), if_neg (by simp [arrayState, hget])]
      exact ih _ _ (by omega)
    | value v =>
      rw [hs] at hget
      rw [if_pos (by simp [arrayState, hget])]
      refine .bind (.orTrap (show arrayGet snapshot i = some v by simp [arrayGet, hget])) fun _ he => ?_
      subst he
      have hset : arraySet (vs.map .value) vs.length v = (vs ++ [v]).map Slot.value := by
        rw [arraySet, setSlot_eq_blit (by simp), ← length_map (f := Slot.value), blit_length]
        simp
      rw [hset, show vs.length + 1 = (vs ++ [v]).length by simp]
      refine (ih _ _ (by omega)).mono fun p hp => ?_
      rw [hp, append_assoc]
      rfl
    | undefined =>
      rw [hs] at hget
      rw [if_neg (by simp [arrayState, hget]), if_pos (by simp [arrayState, hget])]
      refine (ih _ _ (by omega)).mono fun p hp => ?_
      rw [hp]
      simp [Slot.value?, Nat.add_assoc, Nat.add_comm]

theorem writeValues_eq {zs : List E} {i : ℕ} (hi : i ≤ a.length) :
    (writeValues (zs.map .value) a zs.length i : Sorting W X _) = pure (blit a i ((zs.drop i).map .value)) := by
  induction hm : zs.length - i generalizing i a with
  | zero =>
    rw [writeValues, if_neg (by omega), drop_eq_nil_of_le (by omega)]
    simp
  | succ m ih =>
    have hlt : i < zs.length := by omega
    have hget : arrayGet (zs.map .value) i = some zs[i] := by simp [arrayGet, hlt]
    rw [writeValues, if_pos hlt, hget, orTrap, pure_bind, arraySet, setSlot_eq_blit hi,
      ih (succ_le_length_blit hi) (by omega), blit_cons hi, drop_eq_getElem_cons hlt, map_cons]

theorem writeUndefined_eq {stop : ℕ} (hj : j ≤ a.length) :
    writeUndefined a j stop = blit a j (replicate (stop - j) .undefined) := by
  induction hm : stop - j generalizing j a with
  | zero =>
    rw [writeUndefined, if_neg (by omega)]
    simp
  | succ m ih =>
    rw [writeUndefined, if_pos (by omega), arraySetUndefined, setSlot_eq_blit hj,
      ih (succ_le_length_blit hj) (by omega), blit_cons hj, replicate_succ]

theorem deleteRemaining_of_le (hj : a.length ≤ j) : deleteRemaining a j n = a := by
  induction hm : n - j generalizing j with
  | zero => rw [deleteRemaining, if_neg (by omega)]
  | succ m ih =>
    have hdel : arrayDelete a j = a := set_eq_of_length_le hj
    rw [deleteRemaining, if_pos (by omega), hdel, ih (by omega) (by omega)]

theorem deleteRemaining_eq (hj : j ≤ a.length) :
    deleteRemaining a j n = blit a j (replicate (min n a.length - j) .hole) := by
  induction hm : n - j generalizing j a with
  | zero =>
    rw [deleteRemaining, if_neg (by omega), show min n a.length - j = 0 by omega]
    simp
  | succ m ih =>
    by_cases hlt : j < a.length
    · rw [deleteRemaining, if_pos (by omega)]
      have hdel : arrayDelete a j = blit a j [.hole] := by
        rw [← setSlot_eq_blit hj, setSlot, if_pos hlt]
        rfl
      have hlen : (blit a j [Slot.hole]).length = a.length := by
        rw [length_blit hj]
        simp
        omega
      rw [hdel, ih (by rw [hlen]; omega) (by omega), hlen, blit_cons hj, ← replicate_succ]
      congr 2
      omega
    · rw [deleteRemaining_of_le (by omega), show min n a.length - j = 0 by omega]
      simp

/-! ### Comparators -/

/-- The worlds that calls of the comparator lead to. -/
def Calls (f : List V → W → Except X F64 × W) : W → W → Prop :=
  Relation.ReflTransGen fun w w' => ∃ args, (f args w).2 = w'

/-- Some call for two elements throws. -/
def Throws (arity : ℕ) (f : List V → W → Except X F64 × W) : Prop := ∃ x y w e, (f ([x, y].take arity) w).1 = .error e

theorem callValue_spec (arity : ℕ) (f : List V → W → Except X F64 × W) (w : W) (x y : V) :
    Meets (Throws arity f) (Calls f w) (callValue f ([x, y].take arity)) fun c =>
      ∃ w, (f ([x, y].take arity) w).1 = .ok c := by
  intro w' hw
  have hnext : Calls f w (f ([x, y].take arity) w').2 := .tail hw ⟨_, rfl⟩
  cases hr : f ([x, y].take arity) w' with
  | mk c w'' =>
    rw [hr] at hnext
    cases c with
    | error e =>
      have hrun : (callValue f ([x, y].take arity)).run w' = (.error (.throw e), w'') := by
        simp only [callValue, ExceptT.run, hr]
      rw [hrun]
      exact ⟨hnext, x, y, w', e, by rw [hr]⟩
    | ok c =>
      have hrun : (callValue f ([x, y].take arity)).run w' = (.ok c, w'') := by
        simp only [callValue, ExceptT.run, hr]
      rw [hrun]
      exact ⟨hnext, w', by rw [hr]⟩

/-- The elements that count as undefined without being asked about. -/
def undef (isUndefined : Option (E → Bool)) (x : E) : Bool := isUndefined.any fun u => u x

/-- The order of a comparator, with the undefined elements last. -/
def before (isUndefined : Option (E → Bool)) (c : E → E → F64) (x y : E) : Bool :=
  if undef isUndefined x then undef isUndefined y
  else if undef isUndefined y then true
  else !F64.lt F64.zero (c x y)

/-- A comparator that answers by a total preorder, and leaves the receiver alone. -/
structure Consistent (isUndefined : Option (E → Bool)) (arity : ℕ) (f : List E → World R σ → Except X F64 × World R σ)
    (c : E → E → F64) : Prop where
  answers : ∀ x y w, (f ([x, y].take arity) w).1 = .ok (c x y)
  aloof : ∀ args w, (f args w).2.recv = w.recv
  total : ∀ x y, before isUndefined c x y = true ∨ before isUndefined c y x = true
  trans : ∀ x y z, before isUndefined c x y = true → before isUndefined c y z = true → before isUndefined c x z = true

theorem shouldTakeRight_eq (isUndefined : Option (E → Bool)) (arity : ℕ)
    (f : List E → World (Arr E) σ → Except X F64 × World (Arr E) σ) (x y : E) :
    shouldTakeRight isUndefined arity f x y =
      if undef isUndefined x then Pure.pure !undef isUndefined y
      else if undef isUndefined y then Pure.pure false
      else compareGreater arity f x y := by
  cases isUndefined <;> rfl

section Array

variable (isUndefined : Option (E → Bool)) (arity : ℕ) (f : List E → World (Arr E) σ → Except X F64 × World (Arr E) σ)
  (w : World (Arr E) σ)

theorem shouldTakeRight_any (x y : E) :
    Meets (Throws arity f) (Calls f w) (shouldTakeRight isUndefined arity f x y) fun _ => True := by
  rw [shouldTakeRight_eq]
  split_ifs
  · exact .pure trivial
  · exact .pure trivial
  · exact .bind (callValue_spec arity f w x y) fun c _ => .pure trivial

theorem shouldTakeRight_follows {c : E → E → F64} (h : Consistent isUndefined arity f c) (x y : E) :
    Meets (Throws arity f) (Calls f w) (shouldTakeRight isUndefined arity f x y) (Follows (before isUndefined c) x y) := by
  rw [shouldTakeRight_eq]
  unfold Follows before
  split_ifs with hx hy
  · exact .pure rfl
  · exact .pure rfl
  · refine .bind (callValue_spec arity f w x y) fun d hd => .pure ?_
    obtain ⟨w', hw'⟩ := hd
    rw [h.answers x y w'] at hw'
    cases hw'
    simp

/-- The last buffer, for any choices that the comparator makes. -/
theorem sortValues_spec {D : E → E → Bool → Prop}
    (ht : ∀ x y, Meets (Throws arity f) (Calls f w) (shouldTakeRight isUndefined arity f x y) (D x y)) (snapshot : Arr E) :
    Meets (Throws arity f) (Calls f w) (sortValues isUndefined arity f snapshot) fun p =>
      ∃ zs, Passes D 1 (values snapshot) zs ∧ p = (zs.map .value, zs.length, undefineds snapshot) := by
  unfold sortValues
  refine .bind (collect_spec snapshot [] 0) ?_
  rintro p rfl
  simp only [nil_append, drop_zero, Nat.zero_add]
  have hempty : ([] : Arr E) = ([] : List E).map .value := rfl
  refine .bind (mergeWidths_spec (n := (values snapshot).length) arrayViews ht one_pos rfl hempty rfl le_rfl
    (Nat.zero_le _)) ?_
  rintro src ⟨zs, hp, rfl⟩
  refine .pure ⟨zs, hp, ?_⟩
  rw [hp.perm.length_eq]

/-- The array that a sort of `n` slots with `u` own undefined elements returns; `old` is the receiver
before the write back. -/
def sortedArr (copyFirst : Bool) (n u : ℕ) (zs : List E) (old : Arr E) : Arr E :=
  if copyFirst then zs.map .value ++ replicate (n - zs.length) .undefined
  else zs.map .value ++ replicate u .undefined ++
    replicate (min n (max old.length (zs.length + u)) - (zs.length + u)) .hole ++ old.drop n

/-- The receiver after a sort. -/
def sortedWorld (copyFirst : Bool) (w : World (Arr E) σ) (a : Arr E) : World (Arr E) σ :=
  if copyFirst then w else { w with recv := a }

theorem blit_zero : blit l 0 zs = zs ++ l.drop zs.length := by simp [blit]

theorem writeBack_copy {zs : List E} (hz : zs.length ≤ a.length) (u : ℕ) (old : Arr E) :
    writeUndefined (blit a 0 (zs.map .value)) zs.length a.length = sortedArr true a.length u zs old := by
  have hlen : (zs.map Slot.value).length = zs.length := length_map _
  rw [writeUndefined_eq (by rw [length_blit (Nat.zero_le _), hlen]; omega)]
  have hb := blit_blit (zs.map Slot.value) (replicate (a.length - zs.length) Slot.undefined) (Nat.zero_le a.length)
  rw [hlen, Nat.zero_add] at hb
  rw [hb, blit_zero, length_append, hlen, length_replicate, drop_eq_nil_of_le (by omega), append_nil]
  rfl

theorem writeBack_inPlace {zs : List E} (u n : ℕ) (hn : zs.length + u ≤ n) :
    deleteRemaining (writeUndefined (blit a 0 (zs.map .value)) zs.length (zs.length + u)) (zs.length + u) n =
      sortedArr false n u zs a := by
  have hlen : (zs.map Slot.value).length = zs.length := length_map _
  have hb := blit_blit (zs.map Slot.value) (replicate u Slot.undefined) (Nat.zero_le a.length)
  rw [hlen, Nat.zero_add] at hb
  have hlen' : (zs.map Slot.value ++ replicate u Slot.undefined).length = zs.length + u := by
    rw [length_append, hlen, length_replicate]
  rw [writeUndefined_eq (by rw [length_blit (Nat.zero_le _), hlen]; omega), Nat.add_sub_cancel_left, hb]
  have hlen'' : (blit a 0 (zs.map Slot.value ++ replicate u Slot.undefined)).length = max a.length (zs.length + u) := by
    rw [length_blit (Nat.zero_le _), hlen', Nat.zero_add]
  rw [deleteRemaining_eq (by rw [hlen'']; omega), hlen'']
  set holes := replicate (min n (max a.length (zs.length + u)) - (zs.length + u)) (Slot.hole : Slot E) with hh
  have hb' := blit_blit (zs.map Slot.value ++ replicate u Slot.undefined) holes (Nat.zero_le a.length)
  rw [hlen', Nat.zero_add] at hb'
  have hhl : holes.length = min n (max a.length (zs.length + u)) - (zs.length + u) := by rw [hh, length_replicate]
  have hdrop : a.drop (zs.length + u + holes.length) = a.drop n := by
    by_cases hcase : n ≤ max a.length (zs.length + u)
    · rw [show zs.length + u + holes.length = n by omega]
    · rw [drop_eq_nil_of_le (by omega), drop_eq_nil_of_le (by omega)]
  rw [hb', blit_zero, length_append, hlen', hdrop]
  rfl

/-- **A run of the sort**: it throws with only the comparator's doings done, or it returns the merged
values with what belongs after them. -/
theorem arraySort_run {D : E → E → Bool → Prop}
    (ht : ∀ x y, Meets (Throws arity f) (Calls f w) (shouldTakeRight isUndefined arity f x y) (D x y)) (copyFirst : Bool) :
    (∃ x w', (buildArraySortFn isUndefined arity f copyFirst).run w = (.error (.throw x), w') ∧ Calls f w w' ∧
      Throws arity f) ∨
    ∃ zs w', Calls f w w' ∧ Passes D 1 (values w.recv) zs ∧
      (buildArraySortFn isUndefined arity f copyFirst).run w =
        (.ok (sortedArr copyFirst w.recv.length (undefineds w.recv) zs w'.recv),
          sortedWorld copyFirst w' (sortedArr copyFirst w.recv.length (undefineds w.recv) zs w'.recv)) := by
  have hget : ∀ g : World (Arr E) σ → Sorting (World (Arr E) σ) X (Arr E), (get >>= g).run w = (g w).run w := fun _ => rfl
  unfold buildArraySortFn
  rw [hget]
  rcases (sortValues_spec isUndefined arity f w ht w.recv).cases .refl with
    ⟨p, w', hrun, hI, zs, hp, rfl⟩ | ⟨x, w', hrun, hI, hT⟩
  · refine .inr ⟨zs, w', hI, hp, ?_⟩
    rw [run_bind_ok hrun]
    have hcount := length_values_le w.recv
    rw [← hp.perm.length_eq] at hcount
    cases copyFirst with
    | true =>
      simp only [if_true, writeValues_eq (Nat.zero_le _), drop_zero, pure_bind]
      rw [writeBack_copy (by omega) (undefineds w.recv) w'.recv]
      rfl
    | false =>
      have hget' : ∀ g : World (Arr E) σ → Sorting (World (Arr E) σ) X (Arr E), (get >>= g).run w' = (g w').run w' :=
        fun _ => rfl
      simp only [Bool.false_eq_true, if_false]
      rw [hget']
      simp only [writeValues_eq (Nat.zero_le _), drop_zero, pure_bind]
      rw [writeBack_inPlace _ _ hcount]
      rfl
  · exact .inl ⟨x, w', run_bind_throw hrun, hI, hT⟩

end Array

theorem Calls.untouched {f : List V → World R σ → Except X F64 × World R σ} {w w' : World R σ} (h : Calls f w w')
    (hu : ∀ args w, (f args w).2.recv = w.recv) : w'.recv = w.recv := by
  induction h with
  | refl => rfl
  | tail _ hstep ih =>
    obtain ⟨args, rfl⟩ := hstep
    rw [hu, ih]

variable {c : E → E → F64}

theorem Consistent.not_throws {isUndefined : Option (E → Bool)} {arity : ℕ}
    {f : List E → World R σ → Except X F64 × World R σ} (h : Consistent isUndefined arity f c) :
    ¬ Throws arity f := by
  rintro ⟨x, y, w, e, he⟩
  rw [h.answers] at he
  cases he

/-- The undefined elements come last. -/
theorem sorted_eq_append {isUndefined : Option (E → Bool)} {xs zs : List E}
    (h : Stable (before isUndefined c) xs zs) (hp : zs.Perm xs) :
    zs = zs.filter (!undef isUndefined ·) ++ xs.filter (undef isUndefined ·) := by
  have hsplit : ∀ l : List E, l.Pairwise (before isUndefined c · · = true) →
      l = l.filter (!undef isUndefined ·) ++ l.filter (undef isUndefined ·) := by
    intro l hl
    induction l with
    | nil => rfl
    | cons x l ih =>
      obtain ⟨hx, hl⟩ := pairwise_cons.mp hl
      cases hu : undef isUndefined x with
      | false =>
        rw [filter_cons_of_pos (by simp [hu]), filter_cons_of_neg (by simp [hu]), cons_append, ← ih hl]
      | true =>
        have hall : ∀ y ∈ l, undef isUndefined y = true := by
          intro y hy
          have := hx y hy
          rwa [before, if_pos hu] at this
        have h1 : (x :: l).filter (undef isUndefined ·) = x :: l :=
          filter_eq_self.mpr fun y hy => (mem_cons.mp hy).elim (fun e => e ▸ hu) (hall y)
        have h2 : (x :: l).filter (!undef isUndefined ·) = [] :=
          filter_eq_nil_iff.mpr fun y hy => by
            have : undef isUndefined y = true := (mem_cons.mp hy).elim (fun e => e ▸ hu) (hall y)
            simp [this]
        rw [h1, h2, nil_append]
  have hsame : zs.filter (undef isUndefined ·) = xs.filter (undef isUndefined ·) := by
    by_cases hc : ∃ d ∈ xs, undef isUndefined d = true
    · obtain ⟨d, -, hd⟩ := hc
      have hclass : same (before isUndefined c) d = undef isUndefined := by
        funext y
        cases hy : undef isUndefined y <;> simp [same, before, hd, hy]
      have := h.stable d
      rwa [hclass] at this
    · have hnil : ∀ l : List E, (∀ y ∈ l, y ∈ xs) → l.filter (undef isUndefined ·) = [] := fun l hl =>
        filter_eq_nil_iff.mpr fun y hy hu => hc ⟨y, hl y hy, hu⟩
      rw [hnil xs fun _ hy => hy, hnil zs fun _ hy => hp.mem_iff.mp hy]
  have := hsplit zs h.sorted
  rwa [hsame] at this

section Outcomes

variable (isUndefined : Option (E → Bool)) (arity : ℕ) (f : List E → World (Arr E) σ → Except X F64 × World (Arr E) σ)
  (copyFirst : Bool) (w : World (Arr E) σ)

/-- With any comparator: the sort returns some order of the values with what belongs after them, or
the comparator throws. Nothing but the comparator touches the receiver before the write back. -/
def SortsSomehow : Prop :=
  (∃ x w', (buildArraySortFn isUndefined arity f copyFirst).run w = (.error (.throw x), w') ∧ Throws arity f ∧
    Calls f w w' ∧ ((∀ args w, (f args w).2.recv = w.recv) → w'.recv = w.recv)) ∨
  ∃ zs w', zs.Perm (values w.recv) ∧ Calls f w w' ∧ ((∀ args w, (f args w).2.recv = w.recv) → w'.recv = w.recv) ∧
    (buildArraySortFn isUndefined arity f copyFirst).run w =
      (.ok (sortedArr copyFirst w.recv.length (undefineds w.recv) zs w'.recv),
        sortedWorld copyFirst w' (sortedArr copyFirst w.recv.length (undefineds w.recv) zs w'.recv))

/-- With a comparator that answers by `c`: the values in its order, equal ones in theirs, then the
undefined ones, then holes or, from `toSorted`, more undefined ones. -/
def SortsStably (c : E → E → F64) : Prop :=
  ∃ zs w' a, zs.Perm (values w.recv) ∧ Stable (before isUndefined c) (values w.recv) zs ∧
    zs = zs.filter (!undef isUndefined ·) ++ (values w.recv).filter (undef isUndefined ·) ∧
    a = zs.map Slot.value ++ replicate (undefineds w.recv) .undefined ++
      replicate (w.recv.length - (zs.length + undefineds w.recv)) (if copyFirst then .undefined else .hole) ∧
    a.length = w.recv.length ∧ Calls f w w' ∧ w'.recv = w.recv ∧
    (buildArraySortFn isUndefined arity f copyFirst).run w = (.ok a, if copyFirst then w' else { w' with recv := a })

theorem sortsSomehow : SortsSomehow isUndefined arity f copyFirst w := by
  rcases arraySort_run isUndefined arity f w (shouldTakeRight_any isUndefined arity f w) copyFirst with
    ⟨x, w', hrun, hc, hT⟩ | ⟨zs, w', hc, hp, hrun⟩
  · exact .inl ⟨x, w', hrun, hT, hc, hc.untouched⟩
  · exact .inr ⟨zs, w', hp.perm, hc, hc.untouched, hrun⟩

variable {isUndefined arity f} in
theorem Consistent.sortsStably (h : Consistent isUndefined arity f c) :
    SortsStably isUndefined arity f copyFirst w c := by
  rcases arraySort_run isUndefined arity f w (shouldTakeRight_follows isUndefined arity f w h) copyFirst with
    ⟨x, w', hrun, hc, hT⟩ | ⟨zs, w', hc, hp, hrun⟩
  · exact absurd hT h.not_throws
  · have hst := hp.stable h.total h.trans (runs_one _)
    have hrecv := hc.untouched h.aloof
    have hcount := length_values_le w.recv
    rw [← hp.perm.length_eq] at hcount
    refine ⟨zs, w', _, hp.perm, hst, sorted_eq_append hst hp.perm, rfl, ?_, hc, hrecv, hrun.trans ?_⟩
    · simp only [length_append, length_map, length_replicate]
      omega
    · have harr : sortedArr copyFirst w.recv.length (undefineds w.recv) zs w'.recv =
          zs.map Slot.value ++ replicate (undefineds w.recv) .undefined ++
            replicate (w.recv.length - (zs.length + undefineds w.recv)) (if copyFirst then .undefined else .hole) := by
        cases copyFirst with
        | true =>
          rw [sortedArr, if_pos rfl, if_pos rfl, append_assoc, ← replicate_add]
          congr 2
          omega
        | false =>
          rw [sortedArr, if_neg (by decide), if_neg (by decide), hrecv, drop_length, append_nil]
          congr 2
          omega
      rw [harr]
      rfl

end Outcomes

/-! ### Byte arrays -/

theorem bytesViews : Views bytesBuffer n fun vs b => b = vs ∧ vs.length = n where
  get := by
    rintro vs b i v ⟨rfl, -⟩ hv
    exact hv
  set := by
    rintro vs b k v ⟨rfl, hn⟩ - hlt
    refine ⟨b.set k v, if_pos (by omega), ?_, ?_⟩
    · rw [set_eq_take_append_cons_drop, if_pos (by omega), blit]
      simp
    · rw [length_blit (by omega), length_singleton]
      omega

theorem writeBytes_eq {src a : List UInt8} {i : ℕ} (hlen : a.length = src.length) :
    (writeBytes src a src.length i : Sorting W X _) = pure (blit a i (src.drop i)) := by
  induction hm : src.length - i generalizing i a with
  | zero =>
    rw [writeBytes, if_neg (by omega), drop_eq_nil_of_le (by omega), blit_nil]
  | succ m ih =>
    have hlt : i < src.length := by omega
    obtain ⟨b', hset, rfl, hb⟩ := bytesViews.set src[i] (n := src.length) ⟨rfl, hlen⟩ (by omega) hlt
    have hget : bytesBuffer.get src i = some src[i] := getElem?_eq_getElem hlt
    rw [writeBytes, if_pos hlt, hget, orTrap, pure_bind, hset, orTrap, pure_bind, ih hb (by omega),
      blit_cons (by omega), ← drop_eq_getElem_cons hlt]

/-- A comparator of numbers on bytes. -/
def onBytes (g : List F64 → W → Except X F64 × W) : List UInt8 → W → Except X F64 × W := fun args => g (args.map byteNum)

/-- The worlds that the calls lead to, if there is a comparator. -/
def BytesCalls (g : Option (List F64 → W → Except X F64 × W)) (w w' : W) : Prop :=
  match g with
  | some g => Calls (onBytes g) w w'
  | none => w' = w

/-- Some call throws. -/
def BytesThrows (arity : ℕ) (g : Option (List F64 → W → Except X F64 × W)) : Prop :=
  match g with
  | some g => Throws arity (onBytes g)
  | none => False

/-- The comparison without a comparator. -/
def byteDiff (x y : UInt8) : F64 := F64.sub (byteNum x) (byteNum y)

theorem lt_zero_byteDiff (x y : UInt8) : F64.lt F64.zero (byteDiff x y) = decide (y < x) := by
  have hx := x.toNat_lt
  have hy := y.toNat_lt
  have hbound : ∀ b : UInt8, |((b.toNat : ℤ))| ≤ 2 ^ 53 := by
    intro b
    have := b.toNat_lt
    rw [abs_of_nonneg (by positivity)]
    omega
  obtain ⟨hxf, hxr⟩ := F64.round_intCast (hbound x)
  obtain ⟨hyf, hyr⟩ := F64.round_intCast (hbound y)
  obtain ⟨hne, hnum⟩ := F64.num_sub_of_finite hxf hyf
  have hdiff : |((x.toNat : ℤ) - y.toNat)| ≤ 2 ^ 53 := by
    rw [abs_le]
    omega
  have hval : (F64.sub (byteNum x) (byteNum y)).num = ExtRat.fin (((x.toNat : ℤ) - y.toNat : ℤ) : ℚ) := by
    rw [← F64.num_round_intCast hdiff]
    refine hnum.trans ?_
    rw [hxr, hyr]
    push_cast
    rfl
  rw [Bool.eq_iff_iff, decide_eq_true_eq, F64.lt_iff]
  show _ ∧ _ ∧ F64.zero.num < (F64.sub (byteNum x) (byteNum y)).num ↔ _
  rw [hval, F64.num_zero, ExtRat.fin_lt_fin]
  refine ⟨fun h => ?_, fun h => ⟨by simp [F64.zero], hne, ?_⟩⟩
  · have h3 : (0 : ℤ) < (x.toNat : ℤ) - y.toNat := by exact_mod_cast h.2.2
    exact UInt8.lt_iff_toNat_lt.mpr (by omega)
  · have h3 := UInt8.lt_iff_toNat_lt.mp h
    have h4 : (0 : ℤ) < (x.toNat : ℤ) - y.toNat := by omega
    exact_mod_cast h4

section Bytes

variable (arity : ℕ) (g : Option (List F64 → World (List UInt8) σ → Except X F64 × World (List UInt8) σ))
  (w : World (List UInt8) σ)

theorem bytesTakeRight_some (g : List F64 → World (List UInt8) σ → Except X F64 × World (List UInt8) σ) (x y : UInt8) :
    bytesTakeRight arity (some g) x y =
      (callValue (onBytes g) ([x, y].take arity) >>= fun c => pure (F64.lt F64.zero c)) := by
  have hargs : ([byteNum x, byteNum y].take arity) = ([x, y].take arity).map byteNum := by simp [map_take]
  unfold bytesTakeRight
  rw [hargs]
  rfl

theorem bytesTakeRight_any (x y : UInt8) :
    Meets (BytesThrows arity g) (BytesCalls g w) (bytesTakeRight arity g x y) fun _ => True := by
  cases g with
  | none => exact .pure trivial
  | some g =>
    rw [bytesTakeRight_some]
    exact .bind (callValue_spec arity (onBytes g) w x y) fun c _ => .pure trivial

theorem bytesTakeRight_follows {g : List F64 → World (List UInt8) σ → Except X F64 × World (List UInt8) σ}
    {c : UInt8 → UInt8 → F64} (h : Consistent none arity (onBytes g) c) (x y : UInt8) :
    Meets (BytesThrows arity (some g)) (BytesCalls (some g) w) (bytesTakeRight arity (some g) x y)
      (Follows (before none c) x y) := by
  rw [bytesTakeRight_some]
  refine .bind (callValue_spec arity (onBytes g) w x y) fun d hd => .pure ?_
  obtain ⟨w', hw'⟩ := hd
  rw [h.answers x y w'] at hw'
  cases hw'
  simp [Follows, before, undef]

theorem bytesTakeRight_none (hg : g = none) (x y : UInt8) :
    Meets (BytesThrows arity g) (BytesCalls g w) (bytesTakeRight arity g x y)
      (Follows (fun x y => decide (x ≤ y)) x y) := by
  subst hg
  refine .pure ?_
  show F64.lt F64.zero (byteDiff x y) = !decide (x ≤ y)
  rw [lt_zero_byteDiff, ← decide_not]
  exact decide_eq_decide.mpr UInt8.not_le.symm

theorem bytesSort_run {D : UInt8 → UInt8 → Bool → Prop}
    (ht : ∀ x y, Meets (BytesThrows arity g) (BytesCalls g w) (bytesTakeRight arity g x y) (D x y)) :
    (∃ x w', (buildBytesSortFn arity g).run w = (.error (.throw x), w') ∧ BytesCalls g w w' ∧ BytesThrows arity g) ∨
    ∃ zs w', BytesCalls g w w' ∧ Passes D 1 w.recv zs ∧ (buildBytesSortFn arity g).run w = (.ok zs, w') := by
  have hrefl : BytesCalls g w w := by
    cases g with
    | none => exact rfl
    | some g => exact .refl
  have hget : ∀ k : World (List UInt8) σ → Sorting (World (List UInt8) σ) X (List UInt8),
    (get >>= k).run w = (k w).run w := fun _ => rfl
  unfold buildBytesSortFn
  rw [hget]
  have hmerge := mergeWidths_spec (bytesViews (n := w.recv.length)) ht one_pos ⟨rfl, rfl⟩ ⟨rfl, rfl⟩ rfl le_rfl le_rfl
  rcases hmerge.cases hrefl with ⟨src, w', hrun, hI, zs, hp, rfl, hlen⟩ | ⟨x, w', hrun, hI, hT⟩
  · refine .inr ⟨src, w', hI, hp, ?_⟩
    simp only
    rw [run_bind_ok hrun, ← hlen, writeBytes_eq hlen.symm, drop_zero, blit_zero,
      drop_eq_nil_of_le (by omega), append_nil]
    rfl
  · exact .inl ⟨x, w', run_bind_throw hrun, hI, hT⟩

/-- With any comparator: some order of the bytes, or the comparator throws. -/
def BytesSortSomehow : Prop :=
  (∃ x w', (buildBytesSortFn arity g).run w = (.error (.throw x), w') ∧ BytesThrows arity g ∧ BytesCalls g w w') ∨
  ∃ zs w', zs.Perm w.recv ∧ BytesCalls g w w' ∧ (buildBytesSortFn arity g).run w = (.ok zs, w')

/-- With an order: the bytes in that order, equal ones in theirs. -/
def BytesSortStably (le : UInt8 → UInt8 → Bool) : Prop :=
  ∃ zs w', zs.Perm w.recv ∧ Stable le w.recv zs ∧ BytesCalls g w w' ∧ w'.recv = w.recv ∧
    (buildBytesSortFn arity g).run w = (.ok zs, w')

theorem bytesSortSomehow : BytesSortSomehow arity g w := by
  rcases bytesSort_run arity g w (bytesTakeRight_any arity g w) with ⟨x, w', hrun, hc, hT⟩ | ⟨zs, w', hc, hp, hrun⟩
  · exact .inl ⟨x, w', hrun, hT, hc⟩
  · exact .inr ⟨zs, w', hp.perm, hc, hrun⟩

variable {arity} in
theorem Consistent.bytesSortStably {g : List F64 → World (List UInt8) σ → Except X F64 × World (List UInt8) σ}
    {c : UInt8 → UInt8 → F64} (h : Consistent none arity (onBytes g) c) : BytesSortStably arity (some g) w (before none c) := by
  rcases bytesSort_run arity (some g) w (bytesTakeRight_follows arity w h) with
    ⟨x, w', hrun, hc, hT⟩ | ⟨zs, w', hc, hp, hrun⟩
  · exact absurd hT h.not_throws
  · exact ⟨zs, w', hp.perm, hp.stable h.total h.trans (runs_one _), hc, Calls.untouched hc h.aloof, hrun⟩

theorem bytesSortStably_default (hg : g = none) : BytesSortStably arity g w fun x y => decide (x ≤ y) := by
  rcases bytesSort_run arity g w (bytesTakeRight_none arity g w hg) with ⟨x, w', hrun, hc, hT⟩ | ⟨zs, w', hc, hp, hrun⟩
  · subst hg
    exact hT.elim
  · have hst := hp.stable (fun x y => by simpa using UInt8.le_total x y)
      (fun x y z hxy hyz => by simpa using UInt8.le_trans (by simpa using hxy) (by simpa using hyz)) (runs_one _)
    refine ⟨zs, w', hp.perm, hst, hc, ?_, hrun⟩
    subst hg
    rw [show w' = w from hc]

end Bytes

/-- **The generated sort is a stable sort.** The functions are total, so that every run ends. With any
comparator a run never traps and ends with an order of the values; with a consistent one it is the
stable sort, and the same holds for bytes, where the default is the numeric order. -/
theorem generated_sort_stable (isUndefined : Option (E → Bool)) (arity : ℕ)
    (f : List E → World (Arr E) σ → Except X F64 × World (Arr E) σ) (copyFirst : Bool) (w : World (Arr E) σ)
    (g : Option (List F64 → World (List UInt8) σ → Except X F64 × World (List UInt8) σ)) (v : World (List UInt8) σ) :
    SortsSomehow isUndefined arity f copyFirst w ∧
    (∀ c, Consistent isUndefined arity f c → SortsStably isUndefined arity f copyFirst w c) ∧
    BytesSortSomehow arity g v ∧
    (∀ g' c, g = some g' → Consistent none arity (onBytes g') c → BytesSortStably arity g v (before none c)) ∧
    (g = none → BytesSortStably arity g v fun x y => decide (x ≤ y)) := by
  refine ⟨sortsSomehow isUndefined arity f copyFirst w, fun c h => h.sortsStably copyFirst w, bytesSortSomehow arity g v,
    ?_, bytesSortStably_default arity g v⟩
  rintro g' c rfl h
  exact h.bytesSortStably v

/-- Pairs compared by their first component. -/
def pairDiff (x y : UInt8 × ℕ) : F64 := byteDiff x.1 y.1

def pairCmp : List (UInt8 × ℕ) → World (Arr (UInt8 × ℕ)) Unit → Except Unit F64 × World (Arr (UInt8 × ℕ)) Unit
  | [x, y], w => (.ok (pairDiff x y), w)
  | _, w => (.ok F64.zero, w)

theorem before_pairDiff (x y : UInt8 × ℕ) : before none pairDiff x y = decide (x.1 ≤ y.1) := by
  show (!F64.lt F64.zero (byteDiff x.1 y.1)) = _
  rw [lt_zero_byteDiff, ← decide_not]
  exact decide_eq_decide.mpr UInt8.not_lt

theorem pairCmp_consistent : Consistent none 2 pairCmp pairDiff where
  answers x y w := rfl
  aloof args w := by
    unfold pairCmp
    split <;> rfl
  total x y := by
    simpa only [before_pairDiff, decide_eq_true_eq] using UInt8.le_total x.1 y.1
  trans x y z := by
    simpa only [before_pairDiff, decide_eq_true_eq] using UInt8.le_trans

/-- An array with holes, and bytes without a comparator. -/
theorem generated_sort_pairs :
    SortsStably none 2 pairCmp false ⟨[.value (2, 0), .hole, .value (1, 1), .undefined, .value (2, 2)], ()⟩ pairDiff ∧
    BytesSortStably 2 (X := Unit) none ⟨[3, 1, 2], ()⟩ fun x y => decide (x ≤ y) := by
  obtain ⟨-, hstable, -, -, hbytes⟩ := generated_sort_stable none 2 pairCmp false
    ⟨[.value (2, 0), .hole, .value (1, 1), .undefined, .value (2, 2)], ()⟩ none ⟨[3, 1, 2], ()⟩
  exact ⟨hstable pairDiff pairCmp_consistent, hbytes rfl⟩

end Scriptc.Frontend
