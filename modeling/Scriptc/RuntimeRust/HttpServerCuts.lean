import Scriptc.RuntimeRust.HttpServer

/-!
# The HTTP/1 server and how its stream is cut

What comes of a connection does not depend on how its bytes are cut into reads, but for two cuts
inside a chunked body. The decoder takes a size line of any length when it is there as a whole, and
refuses one that is longer than the limit when its end has not arrived. And after the last chunk it
takes the two bytes that end the body only if they are there: a cut before them leaves them to the
next request's head.
-/

namespace Scriptc.RuntimeRust.Http

open List Option

/-! ### Searching a buffer that grows -/

theorem position_lt {p b : Bytes} {i : ℕ} (h : position p b = some i) : i + p.length ≤ b.length := by
  induction b generalizing i with
  | nil => cases h
  | cons a b ih =>
    rw [position] at h
    split at h
    case isTrue hp =>
      obtain rfl := some.inj h
      have := (List.isPrefixOf_iff_prefix.mp hp).length_le
      omega
    case isFalse =>
      obtain ⟨j, hj, rfl⟩ := map_eq_some_iff.mp h
      have := ih hj
      rw [length_cons]
      omega

theorem position_append {p b : Bytes} {i : ℕ} (h : position p b = some i) (x : Bytes) : position p (b ++ x) = some i := by
  induction b generalizing i with
  | nil => cases h
  | cons a b ih =>
    rw [position] at h
    rw [cons_append, position]
    split at h
    case isTrue hp =>
      rw [if_pos, h]
      rw [List.isPrefixOf_iff_prefix] at hp ⊢
      exact hp.trans (prefix_append (a :: b) x)
    case isFalse hp =>
      obtain ⟨j, hj, rfl⟩ := map_eq_some_iff.mp h
      have hlen := position_lt hj
      rw [if_neg, ih hj, map_some]
      rw [List.isPrefixOf_iff_prefix] at hp ⊢
      intro hpre
      exact hp (prefix_of_prefix_length_le hpre (prefix_append (a :: b) x) (by rw [length_cons]; omega))

/-- What is found first only in the longer buffer ends in the new part. -/
theorem length_lt_of_position {p b x : Bytes} {i : ℕ} (hn : position p b = none) (h : position p (b ++ x) = some i)
    (hp : p ≠ []) : b.length < i + p.length := by
  induction b generalizing i with
  | nil =>
    have := length_pos_iff.mpr hp
    simp only [length_nil]
    omega
  | cons a b ih =>
    rw [position] at hn
    rw [cons_append, position] at h
    split at hn
    case isTrue => cases hn
    case isFalse hb =>
      split at h
      case isTrue hp' =>
        obtain rfl := some.inj h
        rw [List.isPrefixOf_iff_prefix] at hb hp'
        by_contra hle
        exact hb (prefix_of_prefix_length_le hp' (prefix_append (a :: b) x) (by omega))
      case isFalse =>
        obtain ⟨j, hj, rfl⟩ := map_eq_some_iff.mp h
        have := ih (map_eq_none_iff.mp hn) hj
        rw [length_cons]
        omega

/-! ### The chunked decoder -/

/-- The size that the first line of a buffer gives, if the line is there and gives one. -/
def lineSize (buffer : Bytes) : Option ℕ := (position crlf buffer).bind fun lineEnd => chunkSize (buffer.take lineEnd)

/-- A size line over the limit whose end has not arrived. The rest of the stream completes it to
one that is well formed. -/
def LineCut (buffer rest : Bytes) (limit : ℕ) : Prop :=
  position crlf buffer = none ∧ limit < buffer.length ∧ (lineSize (buffer ++ rest)).isSome

/-- A last chunk whose two closing bytes have not both arrived, and are in the rest of the stream. -/
def EndCut (buffer rest : Bytes) : Prop :=
  lineSize buffer = some 0 ∧
    ∃ lineEnd ∈ position crlf buffer, buffer.length < lineEnd + 4 ∧ lineEnd + 4 ≤ buffer.length + rest.length

variable {b : Bytes}

theorem lineEnd_le {e : ℕ} (h : position crlf b = some e) : e + 2 ≤ b.length := position_lt h

variable {rem : Option ℕ} {size : ℕ}

theorem chunkBody_needMore {b b' : Bytes} (h : chunkBody b size = some (.needMore, b', rem)) :
    b' = b ∧ rem = some size := by
  rw [chunkBody] at h
  split at h
  · cases h
    exact ⟨rfl, rfl⟩
  · split at h <;> cases h

theorem chunkBody_data {b b' body : Bytes} (h : chunkBody b size = some (.data body, b', rem)) :
    b'.length < b.length ∧ ∀ x, chunkBody (b ++ x) size = some (.data body, b' ++ x, rem) := by
  rw [chunkBody] at h
  split at h
  · cases h
  · rename_i hlen
    split at h
    · cases h
    · rename_i hsize
      cases h
      rw [Nat.mod_eq_of_lt (by omega)] at hlen
      refine ⟨by rw [length_drop]; omega, fun x => ?_⟩
      rw [chunkBody, Nat.mod_eq_of_lt (by omega), if_neg (by rw [length_append]; omega), if_neg hsize,
        take_append_of_le_length (by omega), drop_append_of_le_length (by omega)]

theorem chunkBody_none (h : chunkBody b size = none) (x : Bytes) : chunkBody (b ++ x) size = none := by
  rw [chunkBody] at h ⊢
  split at h
  · cases h
  · rename_i hlen
    split at h
    · rename_i hsize
      rw [if_neg (by rw [length_append]; omega), if_pos hsize]
    · cases h

theorem chunkBody_ne {b b' : Bytes} {step : HttpChunkStep}
    (h : chunkBody b size = some (step, b', rem)) : step ≠ .done ∧ step ≠ .bad := by
  rw [chunkBody] at h
  split at h
  · cases h
    exact ⟨by simp, by simp⟩
  · split at h
    · cases h
    · cases h
      exact ⟨by simp, by simp⟩

section Step

variable {b b' : Bytes} {rem rem' : Option ℕ} {limit lineEnd : ℕ}

theorem chunkedStep_open (h : position crlf b = none) :
    httpChunkedStep b none limit = some (if limit < b.length then .bad else .needMore, b, none) := by
  simp only [httpChunkedStep, h]

theorem chunkedStep_badLine (h : position crlf b = some lineEnd) (hs : lineSize b = none) :
    httpChunkedStep b none limit = some (.bad, b, none) := by
  rw [lineSize, h, bind_some] at hs
  simp only [httpChunkedStep, h, hs]

theorem chunkedStep_last (h : position crlf b = some lineEnd) (hs : lineSize b = some 0) :
    httpChunkedStep b none limit =
      some (.done, if lineEnd + 4 ≤ b.length then b.drop (lineEnd + 4) else b.drop (lineEnd + 2), none) := by
  have hle := lineEnd_le h
  rw [lineSize, h, bind_some] at hs
  simp only [httpChunkedStep, h, hs, length_drop, drop_drop]
  by_cases h4 : lineEnd + 4 ≤ b.length
  · rw [if_pos (by omega), if_pos h4]
  · rw [if_neg (by omega), if_neg h4]

theorem chunkedStep_size (h : position crlf b = some lineEnd) (hs : lineSize b = some (size + 1)) :
    httpChunkedStep b none limit = chunkBody (b.drop (lineEnd + 2)) (size + 1) := by
  rw [lineSize, h, bind_some] at hs
  simp only [httpChunkedStep, h, hs]

theorem lineSize_append (h : position crlf b = some lineEnd) (x : Bytes) : lineSize (b ++ x) = lineSize b := by
  have hle := lineEnd_le h
  rw [lineSize, lineSize, position_append h, h, bind_some, bind_some, take_append_of_le_length (by omega)]

/-- What a step of the decoder can be: it looks for the bytes of a chunk, or there is no size line
yet, or the line gives no size, or the chunk is the last. -/
theorem chunkedStep_cases (b : Bytes) (rem : Option ℕ) (limit : ℕ) :
    (∃ size b₀, b₀.length ≤ b.length ∧ ∀ x, httpChunkedStep (b ++ x) rem limit = chunkBody (b₀ ++ x) size) ∨
    (rem = none ∧ position crlf b = none) ∨
    (rem = none ∧ ∃ lineEnd, position crlf b = some lineEnd ∧ lineSize b = none) ∨
    (rem = none ∧ ∃ lineEnd, position crlf b = some lineEnd ∧ lineSize b = some 0) := by
  cases rem with
  | some size => exact .inl ⟨size, b, le_rfl, fun _ => rfl⟩
  | none =>
    cases hp : position crlf b with
    | none => exact .inr (.inl ⟨rfl, rfl⟩)
    | some lineEnd =>
      rcases hs : lineSize b with _ | _ | size
      · exact .inr (.inr (.inl ⟨rfl, lineEnd, rfl, rfl⟩))
      · exact .inr (.inr (.inr ⟨rfl, lineEnd, rfl, rfl⟩))
      · refine .inl ⟨size + 1, b.drop (lineEnd + 2), by simp, fun x => ?_⟩
        rw [chunkedStep_size (position_append hp x) (by rw [lineSize_append hp, hs]),
          drop_append_of_le_length (lineEnd_le hp)]

/-- The steps that look at the bytes of a chunk are those that wait for them, take them or panic. -/
theorem chunkedStep_isBody {o : Option (HttpChunkStep × Bytes × Option ℕ)} (h : httpChunkedStep b rem limit = o)
    (hd : ∀ b' rem', o ≠ some (.done, b', rem')) (hb : ∀ b' rem', o ≠ some (.bad, b', rem')) :
    (∃ size b₀, b₀.length ≤ b.length ∧ (∀ x, httpChunkedStep (b ++ x) rem limit = chunkBody (b₀ ++ x) size) ∧
      chunkBody b₀ size = o) ∨ rem = none ∧ position crlf b = none ∧ o = some (.needMore, b, none) := by
  rcases chunkedStep_cases b rem limit with
    ⟨size, b₀, hle, hx⟩ | ⟨rfl, hp⟩ | ⟨rfl, lineEnd, hp, hs⟩ | ⟨rfl, lineEnd, hp, hs⟩
  · have h₀ := hx []
    rw [append_nil, append_nil, h] at h₀
    exact .inl ⟨size, b₀, hle, hx, h₀.symm⟩
  · rw [chunkedStep_open hp] at h
    split at h
    · exact absurd h.symm (hb b none)
    · exact .inr ⟨rfl, hp, h.symm⟩
  · rw [chunkedStep_badLine hp hs] at h
    exact absurd h.symm (hb b none)
  · rw [chunkedStep_last hp hs] at h
    exact absurd h.symm (hd _ none)

/-- A decoder that waits does the same later as one that sees all the bytes at once. -/
theorem chunkedStep_needMore (h : httpChunkedStep b rem limit = some (.needMore, b', rem')) (x : Bytes) :
    httpChunkedStep (b' ++ x) rem' limit = httpChunkedStep (b ++ x) rem limit := by
  obtain ⟨size, b₀, -, hx, h₀⟩ | ⟨rfl, -, hn⟩ := chunkedStep_isBody h (by simp) (by simp)
  · obtain ⟨rfl, rfl⟩ := chunkBody_needMore h₀
    exact (hx x).symm
  · cases hn
    rfl

theorem chunkedStep_data {body : Bytes} (h : httpChunkedStep b rem limit = some (.data body, b', rem')) :
    b'.length < b.length ∧ ∀ x, httpChunkedStep (b ++ x) rem limit = some (.data body, b' ++ x, rem') := by
  obtain ⟨size, b₀, hle, hx, h₀⟩ | ⟨-, -, hn⟩ := chunkedStep_isBody h (by simp) (by simp)
  · obtain ⟨hlen, hbody⟩ := chunkBody_data h₀
    refine ⟨hlen.trans_le hle, fun x => ?_⟩
    rw [hx, hbody]
  · cases hn

theorem chunkedStep_none (h : httpChunkedStep b rem limit = none) (x : Bytes) :
    httpChunkedStep (b ++ x) rem limit = none := by
  obtain ⟨size, b₀, -, hx, h₀⟩ | ⟨-, -, hn⟩ := chunkedStep_isBody h (by simp) (by simp)
  · rw [hx, chunkBody_none h₀]
  · cases hn

/-- The end of the body is found at once or later. What is left differs at an `EndCut` only. -/
theorem chunkedStep_done (h : httpChunkedStep b rem limit = some (.done, b', rem')) (x : Bytes) :
    rem = none ∧ rem' = none ∧ b'.length ≤ b.length ∧
      ∃ b'', httpChunkedStep (b ++ x) none limit = some (.done, b'', none) ∧ (¬EndCut b x → b'' = b' ++ x) := by
  rcases chunkedStep_cases b rem limit with
    ⟨size, b₀, -, hx⟩ | ⟨rfl, hp⟩ | ⟨rfl, lineEnd, hp, hs⟩ | ⟨rfl, lineEnd, hp, hs⟩
  · have h₀ := hx []
    rw [append_nil, append_nil, h] at h₀
    exact absurd rfl (chunkBody_ne h₀.symm).1
  · rw [chunkedStep_open hp] at h
    split at h <;> cases h
  · rw [chunkedStep_badLine hp hs] at h
    cases h
  · have hle := lineEnd_le hp
    rw [chunkedStep_last hp hs] at h
    cases h
    refine ⟨rfl, rfl, ?_, _, chunkedStep_last (position_append hp x) (by rw [lineSize_append hp, hs]), fun hcut => ?_⟩
    · split <;> simp
    · rw [length_append]
      by_cases h4 : lineEnd + 4 ≤ b.length
      · rw [if_pos (by omega), if_pos h4, drop_append_of_le_length h4]
      · have hn : ¬lineEnd + 4 ≤ b.length + x.length := fun hx => hcut ⟨hs, lineEnd, hp, by omega, hx⟩
        rw [if_neg hn, if_neg h4, drop_append_of_le_length hle]

/-- What is refused stays refused, but for a `LineCut`. -/
theorem chunkedStep_bad (h : httpChunkedStep b rem limit = some (.bad, b', rem')) {x : Bytes}
    (hcut : ¬(rem = none ∧ LineCut b x limit)) : ∃ b'' rem'', httpChunkedStep (b ++ x) rem limit = some (.bad, b'', rem'') := by
  rcases chunkedStep_cases b rem limit with
    ⟨size, b₀, -, hx⟩ | ⟨rfl, hp⟩ | ⟨rfl, lineEnd, hp, hs⟩ | ⟨rfl, lineEnd, hp, hs⟩
  · have h₀ := hx []
    rw [append_nil, append_nil, h] at h₀
    exact absurd rfl (chunkBody_ne h₀.symm).2
  · rw [chunkedStep_open hp] at h
    have hlimit : limit < b.length := by
      by_contra hle
      rw [if_neg hle] at h
      cases h
    have hsize : lineSize (b ++ x) = none := by
      rw [← not_isSome_iff_eq_none]
      exact fun hsome => hcut ⟨rfl, hp, hlimit, hsome⟩
    cases hpx : position crlf (b ++ x) with
    | none =>
      rw [chunkedStep_open hpx, if_pos (by rw [length_append]; omega)]
      exact ⟨_, _, rfl⟩
    | some lineEnd => exact ⟨_, _, chunkedStep_badLine hpx hsize⟩
  · exact ⟨_, _, chunkedStep_badLine (position_append hp x) (by rw [lineSize_append hp, hs])⟩
  · rw [chunkedStep_last hp hs] at h
    cases h

end Step

/-! ### A step and more bytes -/

/-- The cuts that matter, in terms of the connection before a step and the stream that follows. -/
def Severed (c : HttpServerConnection) (rest : Bytes) : Prop :=
  c.stopped = false ∧ c.request ≠ none ∧ c.chunked = true ∧ c.chunkRemaining = none ∧
    (LineCut c.buffer rest c.maxHeaderSize ∨ EndCut c.buffer rest ∧ c.keepAlive = true)

instance (buffer rest : Bytes) (limit : ℕ) : Decidable (LineCut buffer rest limit) := inferInstanceAs (Decidable (_ ∧ _))

instance (buffer rest : Bytes) : Decidable (EndCut buffer rest) := inferInstanceAs (Decidable (_ ∧ _))

instance (c : HttpServerConnection) (rest : Bytes) : Decidable (Severed c rest) := inferInstanceAs (Decidable (_ ∧ _))

/-- How a step that was made compares with the step that more bytes would have allowed. -/
inductive Follows (c : HttpServerConnection) (x : Bytes) : HttpServerStep × HttpServerConnection → Prop where
  /-- The same step, with the bytes left over. -/
  | same {step : HttpServerStep} {c' : HttpServerConnection} : step.returns = false →
      httpServerNext (c.extend x) = some (step, c'.extend x) → Follows c x (step, c')
  /-- The same step, and nothing is read after it. -/
  | stopped {step : HttpServerStep} {c' : HttpServerConnection} : c'.stopped = true → c'.buffer = [] →
      httpServerNext (c.extend x) = some (step, c') → Follows c x (step, c')
  /-- There was no step to make. -/
  | idle {c' : HttpServerConnection} : httpServerNext (c'.extend x) = httpServerNext (c.extend x) → Follows c x (.idle, c')
  /-- A part of a body, whose other part is in the bytes. -/
  | body {i : ℕ} {b b' : Bytes} {c' c'' : HttpServerConnection} :
      httpServerNext (c'.extend x) = some (.body i b', c'') →
      httpServerNext (c.extend x) = some (.body i (b ++ b'), c'') → Follows c x (.body i b, c')

section Next

variable {c : HttpServerConnection} {i : ℕ} {r : HttpServerStep × HttpServerConnection} {x : Bytes}

theorem next_stopped (h : c.stopped = true) : httpServerNext c = some (.idle, { c with buffer := [] }) := by
  rw [httpServerNext, if_pos h]

theorem next_chunked (hs : c.stopped = false) (hr : c.request = some i) (hc : c.chunked = true) :
    httpServerNext c = chunkedNext c i := by
  simp only [httpServerNext, hs, hr, hc, Bool.false_eq_true, if_false, if_true]

theorem next_length (hs : c.stopped = false) (hr : c.request = some i) (hc : c.chunked = false) :
    httpServerNext c = some (lengthNext c i) := by
  simp only [httpServerNext, hs, hr, hc, Bool.false_eq_true, if_false]

theorem next_head (hs : c.stopped = false) (hr : c.request = none) : httpServerNext c = some (headNext c) := by
  simp only [httpServerNext, hs, hr, Bool.false_eq_true, if_false]

/-- The end of a request, when what is left of the buffer grows with it. -/
theorem reset_extend (h : c.keepAlive = true) : httpServerReset (c.extend x) = (httpServerReset c).extend x := by
  simp only [httpServerReset, HttpServerConnection.extend, h, if_true]

theorem reset_closed {c' : HttpServerConnection} (h : c.keepAlive = false) (b : Bytes)
    (hc : c' = { c with buffer := b }) : httpServerReset c' = httpServerReset c := by
  subst hc
  simp only [httpServerReset, h, Bool.false_eq_true, if_false]

theorem follows_reset (b' : Bytes)
    (hx : httpServerNext (c.extend x) = some (.finish i, httpServerReset { c with buffer := b' }))
    (hb : c.keepAlive = true → b' = b ++ x) : Follows c x (.finish i, httpServerReset { c with buffer := b }) := by
  rcases Bool.eq_false_or_eq_true c.keepAlive with hk | hk
  · refine .same rfl ?_
    rw [hx, hb hk, ← reset_extend (by exact hk)]
    rfl
  · refine .stopped ?_ ?_ ?_
    · simp only [httpServerReset, hk, Bool.false_eq_true, if_false]
    · simp only [httpServerReset, hk, Bool.false_eq_true, if_false]
    · rw [hx, reset_closed hk b' rfl, reset_closed hk b rfl]

theorem follows_chunked (hs : c.stopped = false) (hr : c.request = some i) (hc : c.chunked = true)
    (h : chunkedNext c i = some r) (hcut : ¬Severed c x) : Follows c x r := by
  obtain ⟨⟨step, b', rem'⟩, hstep, rfl⟩ := map_eq_some_iff.mp h
  have hnext : httpServerNext (c.extend x) = chunkedNext (c.extend x) i := next_chunked hs hr hc
  cases step with
  | needMore =>
    refine .idle ?_
    rw [hnext, next_chunked (by exact hs) (by exact hr) (by exact hc), chunkedNext, chunkedNext]
    dsimp only [HttpServerConnection.extend]
    rw [chunkedStep_needMore hstep x]
  | data body =>
    refine .same rfl ?_
    rw [hnext, chunkedNext]
    dsimp only [HttpServerConnection.extend]
    rw [(chunkedStep_data hstep).2 x]
    rfl
  | done =>
    obtain ⟨hrem, rfl, -, b'', hb'', hleft⟩ := chunkedStep_done hstep x
    refine follows_reset b'' ?_ fun hk => hleft fun hend => hcut ⟨hs, by simp [hr], hc, hrem, .inr ⟨hend, hk⟩⟩
    rw [hnext, chunkedNext]
    dsimp only [HttpServerConnection.extend]
    rw [hrem, hb'']
    rfl
  | bad =>
    obtain ⟨b'', rem'', hb''⟩ := chunkedStep_bad hstep (x := x) fun hline =>
      hcut ⟨hs, by simp [hr], hc, hline.1, .inl hline.2⟩
    refine .stopped rfl rfl ?_
    rw [hnext, chunkedNext]
    dsimp only [HttpServerConnection.extend]
    rw [hb'']
    rfl

/-- A body that gave its length: a part of it may be in the bytes. -/
theorem follows_length (hs : c.stopped = false) (hr : c.request = some i) (hc : c.chunked = false) :
    Follows c x (lengthNext c i) := by
  have hnext : httpServerNext (c.extend x) = some (lengthNext (c.extend x) i) := next_length hs hr hc
  by_cases h0 : c.bodyRemaining = 0
  · rw [lengthNext, if_pos h0]
    refine follows_reset (c.buffer ++ x) ?_ fun _ => rfl
    rw [hnext, lengthNext, if_pos (by exact h0)]
    rfl
  · by_cases hb : c.buffer = []
    · rw [lengthNext, if_neg h0, if_pos hb]
      exact .idle rfl
    · have hbx : (c.extend x).buffer ≠ [] := append_ne_nil_of_left_ne_nil hb x
      rw [lengthNext, if_neg (by exact h0), if_neg hbx] at hnext
      rw [lengthNext, if_neg h0, if_neg hb]
      dsimp only [HttpServerConnection.extend] at hnext ⊢
      rcases Nat.lt_or_ge c.buffer.length c.bodyRemaining with hlt | hge
      · rw [Nat.min_eq_right hlt.le, take_length, drop_length]
        have hmin : min c.bodyRemaining (c.buffer ++ x).length =
            c.buffer.length + min (c.bodyRemaining - c.buffer.length) x.length := by
          rw [length_append]
          omega
        rw [hmin, take_length_add_append, drop_length_add_append] at hnext
        by_cases hx : x = []
        · subst hx
          refine .same rfl (hnext.trans ?_)
          simp [HttpServerConnection.extend]
        · refine .body ?_ hnext
          rw [next_length (by exact hs) (by exact hr) (by exact hc), lengthNext,
            if_neg (by dsimp only [HttpServerConnection.extend]; omega), if_neg (by simpa [HttpServerConnection.extend] using hx)]
          dsimp only [HttpServerConnection.extend]
          rw [nil_append, Nat.sub_sub]
      · rw [Nat.min_eq_left hge]
        rw [Nat.min_eq_left (by rw [length_append]; omega), take_append_of_le_length hge,
          drop_append_of_le_length hge] at hnext
        exact .same rfl hnext

/-- Where a head is to come, the limit is passed at once or later. -/
theorem headNext_tooLarge (hb : c.buffer ≠ []) (h : ∀ n, httpHeaderEnd c.buffer = some n → c.maxHeaderSize < n)
    (hn : httpHeaderEnd c.buffer = none → c.maxHeaderSize < c.buffer.length) :
    headNext c = httpServerReject c .headerFieldsTooLarge := by
  rw [headNext, if_neg hb]
  cases he : httpHeaderEnd c.buffer with
  | none => exact if_pos (hn he)
  | some n => exact if_pos (h n he)

theorem headerEnd_le {n : ℕ} (h : httpHeaderEnd b = some n) : n ≤ b.length := by
  obtain ⟨k, hk, rfl⟩ := map_eq_some_iff.mp h
  exact position_lt hk

theorem headerEnd_append {n : ℕ} (h : httpHeaderEnd b = some n) (x : Bytes) : httpHeaderEnd (b ++ x) = some n := by
  obtain ⟨k, hk, rfl⟩ := map_eq_some_iff.mp h
  rw [httpHeaderEnd, position_append hk, map_some]

theorem length_lt_headerEnd {b x : Bytes} {n : ℕ} (hn : httpHeaderEnd b = none) (h : httpHeaderEnd (b ++ x) = some n) :
    b.length < n := by
  obtain ⟨k, hk, rfl⟩ := map_eq_some_iff.mp h
  exact length_lt_of_position (map_eq_none_iff.mp hn) hk (by decide)

/-- A head that is there is read as it is, whatever follows. -/
theorem follows_openRequest {d : HttpServerConnection} {head : HttpRequestHead}
    (h : httpServerNext (c.extend x) = some (openRequest (d.extend x) head)) : Follows c x (openRequest d head) := by
  rw [openRequest] at h ⊢
  cases hf : head.framing with
  | invalid =>
    simp only [hf] at h ⊢
    exact .stopped rfl rfl h
  | chunked =>
    simp only [hf] at h ⊢
    exact .same rfl h
  | length n =>
    simp only [hf] at h ⊢
    exact .same rfl h

theorem follows_head (hs : c.stopped = false) (hr : c.request = none) : Follows c x (headNext c) := by
  have hnext : httpServerNext (c.extend x) = some (headNext (c.extend x)) := next_head hs hr
  by_cases hb : c.buffer = []
  · rw [headNext, if_pos hb]
    exact .idle rfl
  have hbx : (c.extend x).buffer ≠ [] := append_ne_nil_of_left_ne_nil hb x
  have htoo : (∀ n, httpHeaderEnd (c.buffer ++ x) = some n → c.maxHeaderSize < n) →
      (httpHeaderEnd (c.buffer ++ x) = none → c.maxHeaderSize < c.buffer.length) →
      Follows c x (httpServerReject c .headerFieldsTooLarge) := by
    intro h hn
    refine .stopped rfl rfl (hnext.trans ?_)
    rw [headNext_tooLarge hbx h fun he => (hn he).trans_le ?_]
    · rfl
    · exact length_append ▸ Nat.le_add_right ..
  rw [headNext, if_neg hb]
  cases he : httpHeaderEnd c.buffer with
  | none =>
    dsimp only
    split
    case isTrue hmax => exact htoo (fun n hn => hmax.trans (length_lt_headerEnd he hn)) fun _ => hmax
    case isFalse => exact .idle rfl
  | some headLen =>
    have hex := headerEnd_append he x
    have hle := headerEnd_le he
    dsimp only
    split
    case isTrue hmax =>
      refine htoo (fun n hn => ?_) fun hn => ?_
      · rw [hex] at hn
        exact some.inj hn ▸ hmax
      · rw [hex] at hn
        cases hn
    case isFalse hmax =>
      rw [headNext, if_neg hbx] at hnext
      dsimp only [HttpServerConnection.extend] at hnext
      simp only [hex, if_neg hmax, take_append_of_le_length hle, drop_append_of_le_length hle] at hnext
      cases hh : httpParseRequestHead (c.buffer.take headLen) with
      | none =>
        simp only [hh] at hnext
        exact .stopped rfl rfl hnext
      | some head =>
        simp only [hh] at hnext
        exact follows_openRequest hnext

/-- **A step and more bytes.** -/
theorem next_follows (h : httpServerNext c = some r) (hcut : ¬Severed c x) : Follows c x r := by
  rcases Bool.eq_false_or_eq_true c.stopped with hs | hs
  · rw [next_stopped hs] at h
    cases h
    refine .idle ?_
    rw [next_stopped (by exact hs), next_stopped (by exact hs)]
    rfl
  · cases hr : c.request with
    | none =>
      rw [next_head hs hr] at h
      exact some.inj h ▸ follows_head hs hr
    | some i =>
      rcases Bool.eq_false_or_eq_true c.chunked with hc | hc
      · rw [next_chunked hs hr hc] at h
        exact follows_chunked hs hr hc h hcut
      · rw [next_length hs hr hc] at h
        exact some.inj h ▸ follows_length hs hr hc

/-- A panic is not averted by more bytes. -/
theorem next_none (h : httpServerNext c = none) : httpServerNext (c.extend x) = none := by
  rcases Bool.eq_false_or_eq_true c.stopped with hs | hs
  · rw [next_stopped hs] at h
    cases h
  · cases hr : c.request with
    | none =>
      rw [next_head hs hr] at h
      cases h
    | some i =>
      rcases Bool.eq_false_or_eq_true c.chunked with hc | hc
      · rw [next_chunked hs hr hc] at h
        rw [next_chunked (by exact hs) (by exact hr) (by exact hc)]
        rw [chunkedNext, map_eq_none_iff] at h ⊢
        exact chunkedStep_none h x
      · rw [next_length hs hr hc] at h
        cases h

/-! ### The loop -/

theorem work_reset (hr : c.request = some i) (hb : b.length ≤ c.buffer.length) :
    (httpServerReset { c with buffer := b, chunkRemaining := rem }).work < c.work := by
  have hw : c.work = 2 * c.buffer.length + 2 := by
    rw [HttpServerConnection.work, hr]
    rfl
  rw [hw, httpServerReset]
  split
  · simp only [HttpServerConnection.work, isSome_none, Bool.false_eq_true, if_false]
    omega
  · simp [HttpServerConnection.work]

theorem work_pos (c : HttpServerConnection) : 0 < c.work := by
  rw [HttpServerConnection.work]
  split <;> omega

/-- A step after which the loop goes on leaves less to do. -/
theorem work_lt (h : httpServerNext c = some r) (hret : r.1.returns = false) : r.2.work < c.work := by
  rcases Bool.eq_false_or_eq_true c.stopped with hs | hs
  · rw [next_stopped hs] at h
    cases h
    cases hret
  cases hr : c.request with
  | none =>
    rw [next_head hs hr, headNext] at h
    split at h
    · cases h
      cases hret
    split at h
    · split at h <;> cases h <;> cases hret
    · rename_i headLen he
      split at h
      · cases h
        cases hret
      split at h
      · cases h
        cases hret
      · rename_i head hh
        have hlen := headerEnd_le he
        obtain ⟨k, -, rfl⟩ := map_eq_some_iff.mp he
        cases hf : head.framing <;> rw [openRequest, hf] at h <;> cases h
        · simp only [HttpServerConnection.work, hr, length_drop, isSome_some, if_true]
          omega
        · simp only [HttpServerConnection.work, hr, length_drop, isSome_some, if_true]
          omega
        · cases hret
  | some i =>
    rcases Bool.eq_false_or_eq_true c.chunked with hc | hc
    · rw [next_chunked hs hr hc] at h
      obtain ⟨⟨step, b', rem'⟩, hstep, rfl⟩ := map_eq_some_iff.mp h
      cases step with
      | needMore => cases hret
      | data body =>
        have := (chunkedStep_data hstep).1
        simp only [HttpServerConnection.work, hr]
        omega
      | done =>
        obtain ⟨-, -, hle, -⟩ := chunkedStep_done hstep []
        exact work_reset hr hle
      | bad => cases hret
    · rw [next_length hs hr hc] at h
      cases h
      by_cases h0 : c.bodyRemaining = 0
      · rw [lengthNext, if_pos h0]
        exact work_reset hr le_rfl
      · by_cases hb : c.buffer = []
        · rw [lengthNext, if_neg h0, if_pos hb] at hret
          cases hret
        · have hpos := length_pos_iff.mpr hb
          rw [lengthNext, if_neg h0, if_neg hb]
          simp only [HttpServerConnection.work, hr, length_drop]
          omega

end Next

section Settle

variable {s : Session} {c : HttpServerConnection} {r : HttpServerStep × HttpServerConnection}

theorem move_connection (s : Session) (r : HttpServerStep × HttpServerConnection) : (s.move r).connection = some r.2 := by
  cases r with
  | mk step c => cases step <;> rfl

theorem work_eq (h : s.connection = some c) : s.work = c.work := by
  rw [Session.work, h]
  rfl

theorem poll_of_work_le {n m : ℕ} (hn : s.work ≤ n) (hm : s.work ≤ m) : poll n s = poll m s := by
  induction n generalizing s m with
  | zero =>
    cases h : s.connection with
    | none =>
      cases m with
      | zero => rfl
      | succ m => rw [poll, poll, h]
    | some c =>
      have := work_pos c
      rw [work_eq h] at hn
      omega
  | succ n ih =>
    cases h : s.connection with
    | none =>
      cases m with
      | zero => rw [poll, poll, h]
      | succ m => simp only [poll, h]
    | some c =>
      have hpos := work_pos c
      rw [work_eq h] at hn hm
      cases m with
      | zero => omega
      | succ m =>
        rw [poll, poll, h]
        dsimp only
        cases hc : httpServerNext c with
        | none => rfl
        | some r =>
          dsimp only
          cases hret : r.1.returns with
          | true => rfl
          | false =>
            have hlt := work_lt hc hret
            have hw := work_eq (move_connection s r)
            exact ih (by omega) (by omega)

theorem settle_none (h : s.connection = none) : settle s = s := by
  rw [settle, Session.work, h]
  rfl

theorem settle_panic (h : s.connection = some c) (hc : httpServerNext c = none) :
    settle s = { s with connection := none } := by
  have hpos := work_pos c
  rw [settle, poll_of_work_le le_rfl (Nat.le_succ _), poll, h]
  simp only [hc]

/-- One turn of the loop. -/
theorem settle_some (h : s.connection = some c) (hc : httpServerNext c = some r) :
    settle s = if r.1.returns then s.move r else settle (s.move r) := by
  rw [settle, poll_of_work_le le_rfl (Nat.le_succ _), poll, h]
  simp only [hc]
  cases hret : r.1.returns with
  | true => rfl
  | false =>
    have hlt := work_lt hc hret
    have hw := work_eq (move_connection s r)
    rw [work_eq h]
    exact poll_of_work_le (by omega) le_rfl

/-- A session without its connection decides what a step makes of it. -/
theorem move_congr {s s' : Session} (hq : s.requests = s'.requests) (hf : s.refusal = s'.refusal)
    (r : HttpServerStep × HttpServerConnection) : s.move r = s'.move r := by
  have hs : ({ s with connection := some r.2 } : Session) = { s' with connection := some r.2 } := by rw [hq, hf]
  rw [Session.move, Session.move, hs]

theorem settle_congr {s s' : Session} {c c' : HttpServerConnection} (h : s.connection = some c)
    (h' : s'.connection = some c') (hq : s.requests = s'.requests) (hf : s.refusal = s'.refusal)
    (hc : httpServerNext c = httpServerNext c') : settle s = settle s' := by
  cases hn : httpServerNext c with
  | none =>
    rw [settle_panic h hn, settle_panic h' (hc.symm.trans hn), hq, hf]
  | some r => rw [settle_some h hn, settle_some h' (hc.symm.trans hn), move_congr hq hf]

theorem extend_connection {x : Bytes} (h : s.connection = some c) : (s.extend x).connection = some (c.extend x) := by
  rw [Session.extend, h]
  rfl

theorem move_extend (s : Session) (x : Bytes) (step : HttpServerStep) (c : HttpServerConnection) :
    (s.extend x).move (step, c.extend x) = (s.move (step, c)).extend x := by
  cases step <;> rfl

theorem settle_stopped (h : s.connection = some c) (hs : c.stopped = true) :
    settle s = { s with connection := some { c with buffer := [] } } := by
  rw [settle_some h (next_stopped hs)]
  rfl

/-- A connection that has stopped ignores what arrives. -/
theorem settle_extend_stopped (h : s.connection = some c) (hs : c.stopped = true) (hb : c.buffer = []) :
    settle s = s ∧ ∀ x, settle (s.extend x) = s := by
  have hc : ({ s with connection := some { c with buffer := [] } } : Session) = s := by
    cases c with
    | mk buffer =>
      cases s with
      | mk connection =>
        cases hb
        cases h
        rfl
  refine ⟨(settle_stopped h hs).trans hc, fun x => ?_⟩
  exact (settle_stopped (extend_connection h) hs).trans hc

theorem modify_body (l : List HttpRequest) (i : ℕ) (b b' : Bytes) :
    ((l.modify i fun r => { r with body := r.body ++ b }).modify i fun r => { r with body := r.body ++ b' }) =
      l.modify i fun r => { r with body := r.body ++ (b ++ b') } := by
  rw [modify_modify_eq]
  congr 1
  funext r
  simp

/-- After a step, more bytes have the effect that they have before it. -/
theorem settle_move_extend {x : Bytes} (h : s.connection = some c) (hf : Follows c x r) :
    settle ((s.move r).extend x) = settle (s.extend x) := by
  have hx := extend_connection (x := x) h
  cases hf with
  | @same step c' hret hnext =>
    rw [settle_some hx hnext, move_extend, if_neg (by simp [hret])]
  | @stopped step c' hs hb hnext =>
    have hm : (s.extend x).move (step, c') = s.move (step, c') := move_congr rfl rfl _
    obtain ⟨hsettle, hextend⟩ := settle_extend_stopped (move_connection s (step, c')) hs hb
    rw [hextend, settle_some hx hnext, hm, hsettle, ite_self]
  | @idle c' hnext => exact settle_congr (extend_connection (move_connection s _)) hx rfl rfl hnext
  | @body i b b' c' c'' hnext' hnext =>
    rw [settle_some hx hnext, settle_some (extend_connection (move_connection s _)) hnext', if_neg (by simp [HttpServerStep.returns]),
      if_neg (by simp [HttpServerStep.returns])]
    congr 1
    simp only [Session.move, Session.record, Session.extend, modify_body]

end Settle

/-! ### Reads -/

/-- The connection before each step of the loop. -/
def polled : ℕ → HttpServerConnection → List HttpServerConnection
  | 0, _ => []
  | n + 1, c =>
    c :: match httpServerNext c with
      | none => []
      | some r => if r.1.returns then [] else polled n r.2

/-- The connection before each step that a session makes until its loop returns. -/
def Session.steps (s : Session) : List HttpServerConnection :=
  match s.connection with
  | none => []
  | some c => polled c.work c

variable {c : HttpServerConnection}

theorem polled_of_work_le {n m : ℕ} (hn : c.work ≤ n) (hm : c.work ≤ m) : polled n c = polled m c := by
  induction n generalizing c m with
  | zero =>
    have := work_pos c
    omega
  | succ n ih =>
    have hpos := work_pos c
    cases m with
    | zero => omega
    | succ m =>
      rw [polled, polled]
      congr 1
      cases hc : httpServerNext c with
      | none => rfl
      | some r =>
        dsimp only
        cases hret : r.1.returns with
        | true => rfl
        | false =>
          have := work_lt hc hret
          exact ih (by omega) (by omega)

variable {s : Session}

theorem mem_steps (h : s.connection = some c) : c ∈ s.steps := by
  obtain ⟨n, hn⟩ := Nat.exists_eq_add_one.mpr (work_pos c)
  simp only [Session.steps, h]
  rw [hn, polled]
  exact mem_cons_self

theorem steps_move {r : HttpServerStep × HttpServerConnection}
    (h : s.connection = some c) (hc : httpServerNext c = some r) (hret : r.1.returns = false) :
    ∀ d ∈ (s.move r).steps, d ∈ s.steps := by
  intro d hd
  have hlt := work_lt hc hret
  obtain ⟨n, hn⟩ := Nat.exists_eq_add_one.mpr (work_pos c)
  simp only [Session.steps, move_connection] at hd
  simp only [Session.steps, h]
  rw [hn, polled, hc]
  dsimp only
  rw [hret, if_neg Bool.false_ne_true, polled_of_work_le (by omega) le_rfl]
  exact mem_cons_of_mem _ hd

/-- **A read, and then the bytes after it.** -/
theorem settle_extend {x : Bytes} (hcut : ∀ c ∈ s.steps, ¬Severed c x) :
    settle ((settle s).extend x) = settle (s.extend x) := by
  induction hw : s.work using Nat.strong_induction_on generalizing s with
  | _ n ih =>
    cases h : s.connection with
    | none => rw [settle_none h]
    | some c =>
      cases hc : httpServerNext c with
      | none =>
        rw [settle_panic h hc, settle_panic (extend_connection h) (next_none hc), settle_none rfl]
        rfl
      | some r =>
        have hmove := settle_move_extend h (next_follows hc (hcut c (mem_steps h)))
        rw [settle_some h hc]
        cases hret : r.1.returns with
        | true => rwa [if_pos rfl]
        | false =>
          have hlt := work_lt hc hret
          rw [work_eq h] at hw
          rw [if_neg Bool.false_ne_true, ← hmove]
          exact ih _ (by rw [work_eq (move_connection s r)]; omega) (fun d hd => hcut d (steps_move h hc hret d hd)) rfl

/-- Several reads. -/
def httpServerFeeds (s : Session) (reads : List Bytes) : Session := reads.foldl httpServerFeed s

/-- No read ends at one of the cuts that matter. -/
def Unsevered : Session → List Bytes → Prop
  | _, [] => True
  | s, read :: reads =>
    (∀ c ∈ (s.extend read).steps, ¬Severed c reads.flatten) ∧ Unsevered (httpServerFeed s read) reads

theorem extend_extend (s : Session) (a b : Bytes) : (s.extend a).extend b = s.extend (a ++ b) := by
  cases s with
  | mk connection => cases connection <;> simp [Session.extend, HttpServerConnection.extend]

instance decidableUnsevered : ∀ (s : Session) (reads : List Bytes), Decidable (Unsevered s reads)
  | _, [] => .isTrue trivial
  | s, read :: reads =>
    have := decidableUnsevered (httpServerFeed s read) reads
    inferInstanceAs (Decidable (_ ∧ _))

theorem feeds_eq {read : Bytes} {reads : List Bytes} (h : Unsevered s (read :: reads)) :
    httpServerFeeds s (read :: reads) = httpServerFeed s (read :: reads).flatten := by
  induction reads generalizing s read with
  | nil => simp [httpServerFeeds]
  | cons next reads ih =>
    obtain ⟨hcut, hrest⟩ := h
    have hfeed : httpServerFeeds s (read :: next :: reads) = httpServerFeeds (httpServerFeed s read) (next :: reads) := rfl
    rw [hfeed, ih hrest, httpServerFeed, httpServerFeed, httpServerFeed, settle_extend hcut, extend_extend, ← flatten_cons]

theorem feed_accept_nil (maxHeaderSize : ℕ) : httpServerFeed (httpServerAccept maxHeaderSize) [] = httpServerAccept maxHeaderSize :=
  rfl

/-- **The cuts of the stream do not matter**, when no read ends at a `LineCut` or at an `EndCut`: the
requests and how the connection stands are those of the stream delivered in one read. -/
theorem feeds_eq_feed_flatten {maxHeaderSize : ℕ} {reads : List Bytes}
    (h : Unsevered (httpServerAccept maxHeaderSize) reads) :
    (httpServerFeeds (httpServerAccept maxHeaderSize) reads).requests =
        (httpServerFeed (httpServerAccept maxHeaderSize) reads.flatten).requests ∧
      (httpServerFeeds (httpServerAccept maxHeaderSize) reads).outcome =
        (httpServerFeed (httpServerAccept maxHeaderSize) reads.flatten).outcome := by
  cases reads with
  | nil =>
    rw [flatten_nil, feed_accept_nil]
    exact ⟨rfl, rfl⟩
  | cons read reads =>
    rw [feeds_eq h]
    exact ⟨rfl, rfl⟩

def ascii (s : String) : Bytes := s.toList.map fun ch => UInt8.ofNat ch.toNat

/-- A chunked request and one more, cut inside a line end, inside a size line and inside a chunk. -/
def pipelined : List Bytes :=
  [ascii "POST /a HTTP/1.1\r\nTransfer-Encoding: chunked\r", ascii "\n\r\n0", ascii "3\r\nab", ascii "c\r",
    ascii "\n0\r\n\r\nGET / HTTP/1.0\r\n\r", ascii "\n"]

theorem feeds_eq_feed_flatten_pipelined :
    Unsevered (httpServerAccept 16384) pipelined ∧
      (httpServerFeeds (httpServerAccept 16384) pipelined).requests =
        (httpServerFeed (httpServerAccept 16384) pipelined.flatten).requests ∧
      (httpServerFeeds (httpServerAccept 16384) pipelined).outcome =
        (httpServerFeed (httpServerAccept 16384) pipelined.flatten).outcome :=
  have h : Unsevered (httpServerAccept 16384) pipelined := by decide +kernel
  ⟨h, feeds_eq_feed_flatten h⟩

/-- Two requests, cut after the first one's last size line. -/
def cutAtEnd : List Bytes :=
  [ascii "POST /a HTTP/1.1\r\nTransfer-Encoding: chunked\r\n\r\n0\r\n", ascii "\r\nGET / HTTP/1.1\r\n\r\n"]

/-- The second request is lost, and the connection with it: its head begins with the end of the
first one's body. -/
theorem not_feeds_eq_feed_flatten :
    ¬∀ (maxHeaderSize : ℕ) (reads : List Bytes), (∀ read ∈ reads, read ≠ []) →
      (httpServerFeeds (httpServerAccept maxHeaderSize) reads).requests =
          (httpServerFeed (httpServerAccept maxHeaderSize) reads.flatten).requests ∧
        (httpServerFeeds (httpServerAccept maxHeaderSize) reads).outcome =
          (httpServerFeed (httpServerAccept maxHeaderSize) reads.flatten).outcome := by
  intro h
  have hcut : (httpServerFeeds (httpServerAccept 16384) cutAtEnd).outcome = .destroyed := by decide +kernel
  have hwhole : (httpServerFeed (httpServerAccept 16384) cutAtEnd.flatten).outcome = .opened := by decide +kernel
  have heq := (h 16384 cutAtEnd (by decide +kernel)).2
  rw [hcut, hwhole] at heq
  cases heq

end Scriptc.RuntimeRust.Http
