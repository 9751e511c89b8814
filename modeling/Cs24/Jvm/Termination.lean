/-
  Cs24.Jvm.Termination — how a call of `execute` can end.

  The `while` loop stops only at a `return`, `ireturn` or `areturn`, at a fault, or when
  the program counter is no longer below `code_length`; in that last case `execute` falls
  through to its `// Return void` and hands back no value, though no return instruction
  ran (`nop_falls_off`). The `switch` has no `default`: a byte no case matches leaves the
  program counter where it is, so the loop reads the same byte again forever
  (`popReturn_spins`: `pop` before a `return`).

  Proved (`execute_ends`), for every method, with or without branch targets in range:
  - a call that returns `v` does so at a frame its loop reached, by a return instruction
    there (no value for `return`, the top for `ireturn` and `areturn`) or with no value
    at a program counter past the code (`ReturnsAt`);
  - a call whose loop reaches a byte no case matches runs out of every fuel.

  The fuel is the model's, not the code's: once a call ends within `n` passes, every
  larger fuel gives the same ending and heap (`execute_fuel_stable`). A callee runs on the
  caller's remaining fuel, so the proof goes by induction on the fuel, with the callee's
  runs as the hypothesis (`run_succ`).
-/

import Cs24.Jvm.Dispatch

namespace Cs24.Jvm

/-- How the loop of `m` hands back `v` at `fr`: by the return instruction at its program
    counter, or with no value once the program counter is past the code. -/
def ReturnsAt (m : Method) (fr : Frame) (v : Option (BitVec 32)) : Prop :=
  (m.code.length ≤ fr.programCounter ∧ v = none) ∨
  (fr.programCounter < m.code.length ∧
    ((decodeAt m fr.programCounter = some .return_ ∧ v = none) ∨
     ((decodeAt m fr.programCounter = some .ireturn ∨ decodeAt m fr.programCounter = some .areturn) ∧
       v = some (fr.top 1))))

section Ends

variable {cls : ClassFile} {m : Method}

theorem returnsAt_of_doneBy {fr : Frame} {g g' : Glob} {op : Opcode} {v : Option (BitVec 32)}
    (hl : fr.programCounter < m.code.length) (hop : decodeAt m fr.programCounter = some op)
    (h : DoneBy op fr g (.returned v) g') : ReturnsAt m fr v := by
  rcases h with ⟨rfl, hv, -⟩ | ⟨hret, hv, -⟩ | ⟨-, hne⟩
  · exact .inr ⟨hl, .inl ⟨hop, Ending.returned.inj hv⟩⟩
  · exact .inr ⟨hl, .inr ⟨by rcases hret with rfl | rfl <;> simp [hop], Ending.returned.inj hv⟩⟩
  · exact absurd rfl (hne v)

theorem run_returned (n : Nat) :
    ∀ {fr : Frame} {g : Glob} {v : Option (BitVec 32)}, (run cls n m fr g).1 = .returned v →
      ∃ fr' g', Visits cls m n fr g fr' g' ∧ ReturnsAt m fr' v := by
  induction n with
  | zero => intro fr g v h; cases h
  | succ n ih =>
    intro fr g v h
    unfold run at h
    split_ifs at h with hl
    · revert h
      cases hs : step cls (fun m' l g' => run cls n m' (Frame.init m' l) g') m fr g with
      | error f => intro h; cases h
      | ok r =>
        cases r with
        | next fr₁ g₁ =>
          intro h
          obtain ⟨fr', g', hv, hr⟩ := ih h
          exact ⟨fr', g', .next hl hs hv, hr⟩
        | done e g' =>
          rintro rfl
          obtain ⟨op, hop, hd⟩ := step_done hs
          exact ⟨fr, g, .here, returnsAt_of_doneBy hl hop hd⟩
    · cases h
      exact ⟨fr, g, .here, .inl ⟨by omega, rfl⟩⟩

/-- Where the loop stands on a byte no case matches, it stays there until the fuel is gone. -/
theorem run_unsupported {fr : Frame} {g : Glob} (hl : fr.programCounter < m.code.length)
    (hd : decodeAt m fr.programCounter = none) (n : Nat) : run cls n m fr g = (.outOfFuel, g) := by
  induction n with
  | zero => rfl
  | succ n ih =>
    unfold run
    rw [if_pos hl, step_unsupported hl hd]
    exact ih

theorem run_next {n : Nat} {fr fr₁ : Frame} {g g₁ : Glob} (hl : fr.programCounter < m.code.length)
    (hs : step cls (fun m' l g' => run cls n m' (Frame.init m' l) g') m fr g = .ok (.next fr₁ g₁)) :
    run cls (n + 1) m fr g = run cls n m fr₁ g₁ := by
  simp only [run, if_pos hl, hs]

/-- A visited frame is where the rest of the run goes on from. -/
theorem Visits.run_eq {n : Nat} {fr fr' : Frame} {g g' : Glob} (h : Visits cls m n fr g fr' g') :
    ∃ k, run cls n m fr g = run cls k m fr' g' := by
  induction h with
  | here => exact ⟨_, rfl⟩
  | next hl hs _ ih =>
    obtain ⟨k, hk⟩ := ih
    exact ⟨k, (run_next hl hs).trans hk⟩

theorem execute_ends (cls : ClassFile) (m : Method) (locals : List (BitVec 32)) (g : Glob) :
    (∀ n v, (execute cls n m locals g).1 = .returned v →
      ∃ fr g', Visits cls m n (Frame.init m locals) g fr g' ∧ ReturnsAt m fr v) ∧
    (∀ n fr g', Visits cls m n (Frame.init m locals) g fr g' → fr.programCounter < m.code.length →
      decodeAt m fr.programCounter = none → (execute cls n m locals g).1 = .outOfFuel) := by
  refine ⟨fun n v h => run_returned n h, fun n fr g' hv hl hd => ?_⟩
  obtain ⟨k, hk⟩ := hv.run_eq
  rw [execute, hk, run_unsupported hl hd]

end Ends

/-- A method of one `nop`: the loop runs off the code and `execute` returns no value, with
    no return instruction in the method. -/
theorem nop_falls_off :
    (⟨[0x00], 0, 0, 0, false⟩ : Method).code.length = 1 ∧
    decodeAt ⟨[0x00], 0, 0, 0, false⟩ 0 = some .nop ∧
    execute ⟨[], []⟩ 2 ⟨[0x00], 0, 0, 0, false⟩ [] ⟨[], []⟩ = (.returned none, ⟨[], []⟩) := by
  decide

/-- `iconst_0; pop; return`, a void method. -/
def popReturn : Method := ⟨[0x03, 0x57, 0xb1], 1, 0, 0, false⟩

/-- `pop` is no case of the switch: the loop stays on it, and though the method ends in
    `return`, no fuel is enough for it to return. -/
theorem popReturn_spins (n : Nat) : (execute ⟨[], []⟩ n popReturn [] ⟨[], []⟩).1 = .outOfFuel := by
  cases n with
  | zero => rfl
  | succ n =>
    have h : run ⟨[], []⟩ (n + 1) popReturn (Frame.init popReturn []) ⟨[], []⟩ =
        run ⟨[], []⟩ n popReturn ⟨1, [0], 1, []⟩ ⟨[], []⟩ := run_next (by decide) rfl
    rw [execute, h, run_unsupported (by decide) (by decide)]

section Fuel

variable {cls : ClassFile} {m : Method} {fr : Frame} {g : Glob}

/-- The callee `c₂` gives what `c₁` gives wherever `c₁` did not run out of fuel. -/
def CalleeExtends (c₁ c₂ : Method → List (BitVec 32) → Glob → Ending × Glob) : Prop :=
  ∀ meth lq g, (c₁ meth lq g).1 ≠ .outOfFuel → c₂ meth lq g = c₁ meth lq g

variable {c₁ c₂ : Method → List (BitVec 32) → Glob → Ending × Glob}

theorem invokestatic_extends (hc : CalleeExtends c₁ c₂)
    (h : ∀ g', invokestatic cls c₁ m fr g ≠ .ok (.done .outOfFuel g')) :
    invokestatic cls c₂ m fr g = invokestatic cls c₁ m fr g := by
  revert h
  unfold invokestatic
  cases codeAt m (fr.programCounter + 1) with
  | error e => intro _; rfl
  | ok b1 =>
    cases codeAt m (fr.programCounter + 2) with
    | error e => intro _; rfl
    | ok b2 =>
      simp only [ok_bind]
      cases findMethodFromIndex (b1.toNat * 256 + b2.toNat) cls with
      | none => intro _; rfl
      | some meth =>
        simp only
        cases popParameters meth.parameters (List.replicate meth.maxLocals 0) fr with
        | error e => intro _; rfl
        | ok p =>
          simp only [ok_bind]
          by_cases ho : (c₁ meth p.1 g).1 = .outOfFuel
          · rcases hcall : c₁ meth p.1 g with ⟨e, g'⟩
            rw [hcall] at ho
            subst ho
            exact fun h => absurd rfl (h g')
          · intro _
            rw [hc _ _ _ ho]

/-- Only `invokestatic` calls the callee, and it passes a run out of fuel on. -/
theorem step_extends (hc : CalleeExtends c₁ c₂)
    (h : ∀ g', step cls c₁ m fr g ≠ .ok (.done .outOfFuel g')) :
    step cls c₂ m fr g = step cls c₁ m fr g := by
  revert h
  unfold step
  cases codeAt m fr.programCounter with
  | error e => intro _; rfl
  | ok b =>
    simp only [ok_bind]
    cases Opcode.ofByte b with
    | none => intro _; rfl
    | some op =>
      cases op
      case invokestatic =>
        intro h
        have he : ∀ g', invokestatic cls c₁ m fr g ≠ .ok (.done .outOfFuel g') := fun g' he =>
          h g' (show (invokestatic cls c₁ m fr g).map (Next.record .invokestatic fr) = _ by rw [he]; rfl)
        show (invokestatic cls c₂ m fr g).map _ = (invokestatic cls c₁ m fr g).map _
        rw [invokestatic_extends hc he]
      all_goals intro _; rfl

/-- One more pass of fuel changes nothing once a run has ended. -/
theorem run_succ (n : Nat) : ∀ (m : Method) (fr : Frame) (g : Glob),
    (run cls n m fr g).1 ≠ .outOfFuel → run cls (n + 1) m fr g = run cls n m fr g := by
  induction n with
  | zero => intro m fr g h; exact absurd rfl h
  | succ n ih =>
    intro m fr g h
    have hc : CalleeExtends (fun m' l g' => run cls n m' (Frame.init m' l) g')
        (fun m' l g' => run cls (n + 1) m' (Frame.init m' l) g') :=
      fun meth _ g hne => ih meth _ g hne
    unfold run at h ⊢
    split_ifs at h ⊢ with hl
    · rw [step_extends hc]
      · revert h
        cases step cls (fun m' l g' => run cls n m' (Frame.init m' l) g') m fr g with
        | error f => intro _; rfl
        | ok r =>
          cases r with
          | next fr' g' => exact ih m fr' g'
          | done e g' => intro _; rfl
      · intro g' hs
        rw [hs] at h
        exact h rfl
    · rfl

end Fuel

theorem execute_fuel_stable (cls : ClassFile) (m : Method) (locals : List (BitVec 32)) (g : Glob)
    (n k : Nat) (h : (execute cls n m locals g).1 ≠ .outOfFuel) :
    execute cls (n + k) m locals g = execute cls n m locals g := by
  induction k with
  | zero => rfl
  | succ k ih =>
    rw [← Nat.add_assoc, execute, run_succ _ _ _ _ (by rw [← execute, ih]; exact h)]
    exact ih

end Cs24.Jvm
