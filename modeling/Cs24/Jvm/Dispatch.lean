/-
  Cs24.Jvm.Dispatch — what one pass of `execute`'s loop can do, said once.

  Every handler but six touches only its own frame and goes on (`exec_plain`); the six
  that print, call, or reach the heap (`Opcode.shared`) have lemmas of their own where
  they are used. Only `return`, `ireturn`, `areturn` and a callee that did not return
  stop the loop (`exec_done`, `step_done`); a byte no case matches leaves the frame as
  it is (`step_unsupported`).
-/

import Cs24.Jvm.StackDepth

namespace Cs24.Jvm

@[simp] theorem wp_true {ε β : Type} (x : Except ε β) : Wp x (fun _ => True) (fun _ => True) := by
  cases x <;> trivial

theorem wp_iff_ok {ε β : Type} (x : Except ε β) {post : β → Prop} :
    Wp x post (fun _ => True) ↔ ∀ a, x = .ok a → post a := by
  cases x <;> simp

@[simp] theorem pure_eq_ok_iff {ε α : Type} {a b : α} : (pure a : Except ε α) = .ok b ↔ a = b :=
  ⟨fun h => Except.ok.inj h, fun h => h ▸ rfl⟩

theorem peek_ok_or (fr : Frame) (k : Nat) :
    fr.peek k = .ok (fr.top k) ∨ fr.peek k = .error (.undefined .operandStack) := by
  unfold Frame.peek readSlot
  split_ifs <;> simp [Frame.top]

/-- The handlers that read or write what every invocation shares. -/
def Opcode.shared (op : Opcode) : Bool :=
  op matches .invokevirtual | .invokestatic | .newarray | .arraylength | .iastore | .iaload

/-- The handlers that end the invocation. -/
def Opcode.returns (op : Opcode) : Bool := op matches .return_ | .ireturn | .areturn

section Dispatch

variable {cls : ClassFile} {callee : Method → List (BitVec 32) → Glob → Ending × Glob} {m : Method}
  {fr : Frame} {g : Glob} {op : Opcode}

/-- Every other handler goes on to a next frame and leaves the heap and the log alone. -/
theorem exec_plain (hs : op.shared = false) (hr : op.returns = false) :
    Wp (exec cls callee m fr g op) (fun r => ∃ fr', r = .next fr' g) (fun _ => True) := by
  cases op <;> simp [Opcode.shared, Opcode.returns] at hs hr <;> simp [exec.eq_def]

/-- How an invocation's loop can stop: a return instruction, or a callee that did not return. -/
def DoneBy (op : Opcode) (fr : Frame) (g : Glob) (e : Ending) (g' : Glob) : Prop :=
  (op = .return_ ∧ e = .returned none ∧ g' = g) ∨
  ((op = .ireturn ∨ op = .areturn) ∧ e = .returned (some (fr.top 1)) ∧ g' = g) ∨
  (op = .invokestatic ∧ ∀ v, e ≠ .returned v)

theorem invokestatic_done :
    Wp (invokestatic cls callee m fr g) (fun r => ∀ e g', r = .done e g' → ∀ v, e ≠ .returned v)
      (fun _ => True) := by
  simp only [invokestatic, wp_bind]
  simp only [wp_iff_ok]
  intro b1 _ b2 _
  split
  · simp
  · rw [← wp_iff_ok]
    simp only [wp_bind]
    simp only [wp_iff_ok]
    rintro ⟨lq, fr'⟩ _
    rcases callee _ lq g with ⟨(_ | v) | f | _, g'⟩
    · simp
    · dsimp only; split <;> simp
    · simp
    · simp

theorem exec_done : Wp (exec cls callee m fr g op) (fun r => ∀ e g', r = .done e g' → DoneBy op fr g e g')
    (fun _ => True) := by
  cases op
  case invokestatic =>
    exact invokestatic_done.imp (fun r h e g' hr => .inr (.inr ⟨rfl, h e g' hr⟩)) fun _ h => h
  case ireturn | areturn =>
    rcases peek_ok_or fr 1 with h | h <;> simp [exec.eq_def, h, DoneBy]
  case return_ => simp [exec.eq_def, DoneBy]
  case invokevirtual | newarray | arraylength | iastore | iaload =>
    simp [exec.eq_def, newarray, arraylength, iastore, iaload]
  all_goals refine (exec_plain ?_ ?_).imp (fun _ ⟨_, h⟩ _ _ hd => nomatch h.symm.trans hd) (fun _ h => h) <;> rfl

theorem codeAt_eq_ok {k : Nat} {b : UInt8} (h : codeAt m k = .ok b) : k < m.code.length ∧ b = m.code.getD k 0 := by
  unfold codeAt at h
  split_ifs at h with hk
  · exact ⟨hk, (Except.ok.inj h).symm⟩

theorem step_unsupported (hl : fr.programCounter < m.code.length) (hd : decodeAt m fr.programCounter = none) :
    step cls callee m fr g = .ok (.next fr g) := by
  rw [step, codeAt_ok hl, ok_bind]
  rw [decodeAt] at hd
  rw [hd]
  rfl

theorem step_done {e : Ending} {g' : Glob} (h : step cls callee m fr g = .ok (.done e g')) :
    ∃ op, decodeAt m fr.programCounter = some op ∧ DoneBy op fr g e g' := by
  unfold step at h
  cases hc : codeAt m fr.programCounter with
  | error f => rw [hc] at h; cases h
  | ok b =>
    rw [hc, ok_bind] at h
    obtain ⟨-, rfl⟩ := codeAt_eq_ok hc
    cases ho : Opcode.ofByte (m.code.getD fr.programCounter 0) with
    | none => rw [ho] at h; cases h
    | some op =>
      rw [ho] at h
      dsimp only at h
      cases hx : exec cls callee m fr g op with
      | error f => rw [hx] at h; cases h
      | ok r =>
        rw [hx] at h
        have hr : r = .done e g' := by cases r <;> simpa using Except.ok.inj h
        exact ⟨op, ho, (wp_iff_ok _).1 exec_done _ (hr ▸ hx) e g' rfl⟩

end Dispatch

end Cs24.Jvm
