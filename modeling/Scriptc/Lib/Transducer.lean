import Mathlib.Data.List.Basic

/-!
# Readers that hold items back

A reader takes items from a queue, holds some of them, gives some back to the queue, and spends what
it held on what it writes. In every turn the items that are pending, held or queued, either stay as
they are, and one has moved, or lose some at their front.
-/

namespace Transducer

open List

variable {σ β γ ε : Type*}

/-- The output is what the pieces of the input are spent on, in order. -/
inductive Spends (piece : List β → List γ → Prop) : List β → List γ → Prop
  | nil : Spends piece [] []
  | snoc {input items : List β} {output out : List γ} : Spends piece input output → piece items out →
      Spends piece (input ++ items) (output ++ out)

variable {piece : List β → List γ → Prop}

theorem Spends.one {items : List β} {out : List γ} (h : piece items out) : Spends piece items out := .snoc .nil h

theorem Spends.append {input input' : List β} {output output' : List γ} (h : Spends piece input output)
    (h' : Spends piece input' output') : Spends piece (input ++ input') (output ++ output') := by
  induction h' with
  | nil => rwa [append_nil, append_nil]
  | snoc _ hp ih =>
    rw [← append_assoc, ← append_assoc]
    exact .snoc ih hp

/-- Some turns, until a step has no next state. -/
def run (endless : ε) (step : σ → Except ε (Option σ)) : ℕ → σ → Except ε σ
  | 0, _ => .error endless
  | n + 1, s =>
    match step s with
    | .error e => .error e
    | .ok none => .ok s
    | .ok (some s') => run endless step n s'

/-- What one turn does: `rest` goes down where nothing is spent. -/
inductive Turn (piece : List β → List γ → Prop) (pending : σ → List β) (rest : σ → ℕ) (output : σ → List γ) (s s' : σ) : Prop
  | move : pending s' = pending s → output s' = output s → rest s' < rest s → Turn piece pending rest output s s'
  | spend (items : List β) (out : List γ) : pending s = items ++ pending s' → output s' = output s ++ out → piece items out →
      items ≠ [] → Turn piece pending rest output s s'

variable {endless : ε} {step : σ → Except ε (Option σ)} {pending : σ → List β} {rest : σ → ℕ} {output : σ → List γ} {I : σ → Prop}

/-- **A reader ends**, and has spent what is pending no more. -/
theorem run_spec (bound : ℕ) {done : σ → Prop}
    (hstep : ∀ s, I s → step s = .ok none ∧ done s ∨ ∃ s', step s = .ok (some s') ∧ I s' ∧ Turn piece pending rest output s s')
    (hrest : ∀ s, I s → rest s ≤ (pending s).length + 1) {n : ℕ} {s : σ} (hs : I s) (hbound : (pending s).length ≤ bound)
    (hn : (pending s).length * (bound + 2) + rest s < n) :
    ∃ s' spent out, run endless step n s = .ok s' ∧ I s' ∧ done s' ∧ pending s = spent ++ pending s' ∧
      output s' = output s ++ out ∧ Spends piece spent out := by
  induction n generalizing s with
  | zero => omega
  | succ n ih =>
    obtain ⟨hr, hdone⟩ | ⟨s1, hr, hs1, hturn⟩ := hstep s hs
    · exact ⟨s, [], [], by rw [run, hr], hs, hdone, rfl, (append_nil _).symm, .nil⟩
    have hrun : run endless step (n + 1) s = run endless step n s1 := by rw [run, hr]
    rw [hrun]
    cases hturn with
    | move hpending houtput hlt =>
      rw [← hpending] at hn hbound ⊢
      rw [← houtput]
      exact ih hs1 hbound (by omega)
    | spend items out hpending houtput hp hne =>
      have hlength : (pending s).length = items.length + (pending s1).length := by rw [hpending, length_append]
      have hpos : 0 < items.length := length_pos_iff.mpr hne
      have hle := hrest s1 hs1
      have hmul : (pending s1).length * (bound + 2) + (bound + 2) ≤ (pending s).length * (bound + 2) := by
        rw [hlength, ← Nat.succ_mul]
        exact Nat.mul_le_mul_right _ (by omega)
      obtain ⟨s', spent, out', hrun', hs', hend, hpending', houtput', hspends⟩ := ih hs1 (by omega) (by omega)
      refine ⟨s', items ++ spent, out ++ out', hrun', hs', hend, ?_, ?_, (Spends.one hp).append hspends⟩
      · rw [hpending, hpending', append_assoc]
      · rw [houtput', houtput, append_assoc]

end Transducer
