import Mathlib.Data.List.Basic

/-!
# Streams that come in chunks

A machine is fed with pieces of a stream. What it has not dealt with yet it holds back. If every
step gives out what the whole stream would have given so far, how the stream was cut does not show
in the end.

A stream of lines: what ends a line may be one symbol or two, so a line may be over only when the
symbol behind it is there.
-/

namespace Chunks

variable {α β σ : Type*}

/-- The pieces one after the other: what was given out, and the state at the end. -/
def feed (step : σ → List α → List β × σ) : σ → List (List α) → List β × σ
  | s, [] => ([], s)
  | s, chunk :: chunks =>
    let r := step s chunk
    let rest := feed step r.2 chunks
    (r.1 ++ rest.1, rest.2)

/-- In the states of an invariant a step gives out a part of what the stream decodes to, and the
rest follows from what it holds. -/
structure Decodes (step : σ → List α → List β × σ) (decode : List α → List β) (held : σ → List α)
    (Inv : σ → Prop) : Prop where
  inv : ∀ s chunk, Inv s → Inv (step s chunk).2
  out : ∀ s chunk more, Inv s →
    decode (held s ++ (chunk ++ more)) = (step s chunk).1 ++ decode (held (step s chunk).2 ++ more)

variable {step : σ → List α → List β × σ} {decode : List α → List β} {held : σ → List α} {Inv : σ → Prop}

theorem Decodes.feed_inv (h : Decodes step decode held Inv) {s : σ} (hs : Inv s) (chunks : List (List α)) :
    Inv (feed step s chunks).2 := by
  induction chunks generalizing s with
  | nil => exact hs
  | cons chunk chunks ih => exact ih (h.inv s chunk hs)

theorem Decodes.feed_out (h : Decodes step decode held Inv) {s : σ} (hs : Inv s) (chunks : List (List α)) (more : List α) :
    decode (held s ++ (chunks.flatten ++ more)) =
      (feed step s chunks).1 ++ decode (held (feed step s chunks).2 ++ more) := by
  induction chunks generalizing s with
  | nil => rfl
  | cons chunk chunks ih =>
    rw [List.flatten_cons, List.append_assoc, h.out s chunk _ hs, ih (h.inv s chunk hs), feed, List.append_assoc]

end Chunks

namespace Lines

variable {α : Type*} [DecidableEq α] (cr lf : α)

variable {cr lf}

end Lines
