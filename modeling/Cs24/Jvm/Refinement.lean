/-
  Cs24.Jvm.Refinement — `execute` refines the reference interpreter of spec §4.1.

  The simulation is in lockstep: one pass of `execute`'s loop for one instruction of the
  reference, on the same fuel, the callee of an `invokestatic` on the fuel left in both.
  Each handler is held against the reference's instruction group (`sim_exec`, one lemma a
  group): wherever the reference goes on, the handler goes on to a frame showing the
  reference's, with the same heap and printed lines; where the reference ends, the handler
  ends the same way. What the reference stops (`fatal`, `edge`) is left open: there the
  C code is undefined or aborts, or does what the reference does not say.

  Proved:
  - `sim_arith`: where the reference's `a OP b` is an `int32`, the handler's C expression
    (after its `assert`) is defined and is that value, `ishr` being `sshiftRight` and
    `iushr` the logical shift of the bits.
  - `popParameters_eq`: `invokestatic`'s loop puts the top `k` values in slots `k - 1`,
    ..., 0, the first pushed in slot 0, and the rest of the callee's locals stay zero;
    `invokestatic_copy_in_out`: the callee runs on those locals, and its value replaces
    the `k` values on the caller's stack.
  - `sim_run`, `execute_refines_reference`: for every class whose code lengths fit a
    `size_t`, every method, fuel, locals and related heaps, `execute` agrees with the
    reference unless the reference stops.
-/

import Cs24.Jvm.Simulation
import Cs24.Jvm.Arith

namespace Cs24.Jvm

/-! ## Arithmetic -/

theorem toInt_eq_zero_iff {a : BitVec 32} : a.toInt = 0 ↔ a = 0 :=
  ⟨fun h => BitVec.eq_of_toInt_eq (by rw [h]; rfl), fun h => by rw [h]; rfl⟩

theorem sim_arith {op : Opcode} (hop : op ∈ binops) (a b : BitVec 32) : Sim Eq (cBinop op a b) (Ref.arith op a b) := by
  intro r h
  simp only [binops, List.mem_cons, List.mem_nil_iff, or_false] at hop
  rcases hop with rfl | rfl | rfl | rfl | rfl | rfl | rfl | rfl | rfl | rfl | rfl
  all_goals simp only [Ref.arith, except_bind_eq_ok, Ref.check_eq_ok] at h
  case inl =>
    obtain ⟨hx, rfl⟩ := Ref.int32_eq_ok.1 h
    exact ⟨_, by rw [cBinop, cAdd, intResult_of_inRange (Int.add_comm a.toInt b.toInt ▸ hx)],
      by rw [Int.add_comm]; rfl⟩
  case inr.inl | inr.inr.inl =>
    obtain ⟨hx, rfl⟩ := Ref.int32_eq_ok.1 h
    exact ⟨_, intResult_of_inRange hx, rfl⟩
  case inr.inr.inr.inl =>
    obtain ⟨_, hb, hr⟩ := h
    obtain ⟨hx, rfl⟩ := Ref.int32_eq_ok.1 hr
    have hb' : b ≠ 0 := fun h0 => hb (toInt_eq_zero_iff.2 h0)
    exact ⟨_, by rw [cBinop, assertThat_of hb', ok_bind, cDiv, if_neg hb', intResult_of_inRange hx]; rfl, rfl⟩
  case inr.inr.inr.inr.inl =>
    obtain ⟨_, hb, _, hne, hr⟩ := h
    cases hr
    have hb' : b ≠ 0 := fun h0 => hb (toInt_eq_zero_iff.2 h0)
    have hq := (tdiv_inRange_iff a hb).2 hne
    exact ⟨_, by simp only [cBinop, assertThat_of hb', ok_bind, cRem, cDiv, if_neg hb', intResult_of_inRange hq,
      intResult_of_inRange (tmod_inRange a hb)]; rfl, rfl⟩
  case inr.inr.inr.inr.inr.inl =>
    obtain ⟨_, h0, _, ⟨h32, ha⟩, hr⟩ := h
    obtain ⟨hx, rfl⟩ := Ref.int32_eq_ok.1 hr
    exact ⟨_, by rw [cBinop, assertThat_of h0, ok_bind, cShl, if_pos ⟨⟨h0, h32⟩, ha⟩, intResult_of_inRange hx]; rfl, rfl⟩
  case inr.inr.inr.inr.inr.inr.inl =>
    obtain ⟨_, h0, _, h32, hr⟩ := h
    cases hr
    refine ⟨_, by rw [cBinop, assertThat_of h0, ok_bind, cShr, if_pos ⟨h0, h32⟩], ?_⟩
    show BitVec.ofInt 32 _ = BitVec.ofInt 32 _
    rw [Int.shiftRight_eq_div_pow, Int.natCast_pow]; rfl
  case inr.inr.inr.inr.inr.inr.inr.inl =>
    obtain ⟨_, h0, _, h32, hr⟩ := h
    cases hr
    refine ⟨_, by rw [cBinop, assertThat_of h0, ok_bind, cUshr, if_pos ⟨h0, h32⟩], ?_⟩
    apply BitVec.eq_of_toNat_eq
    rw [BitVec.toNat_ofNat, BitVec.toNat_ushiftRight, Nat.shiftRight_eq_div_pow,
      Nat.mod_eq_of_lt (lt_of_le_of_lt (Nat.div_le_self _ _) a.isLt)]
  all_goals cases h; exact ⟨_, rfl, rfl⟩

/-! ## One instruction

As in `StackDepth`, `exec` and `Ref.exec` are unfolded through `eq_def`, never through
their per-opcode equation lemmas. -/

section Exec

variable {cls : ClassFile} {c : Method → List (BitVec 32) → Glob → Ending × Glob}
  {rc : Method → List (BitVec 32) → Ref.Glob → Ref.Outcome × Ref.Glob} {m : Method} {fr : Frame} {g : Glob}
  {rg : Ref.Glob}

theorem ref_exec_binop {op : Opcode} (hop : op ∈ binops) (f : Ref.Frame) :
    Ref.exec cls rc m f rg op = (f.binop m op).map fun f => .next (f.advance 1) rg := by
  simp only [binops, List.mem_cons, List.mem_nil_iff, or_false] at hop
  rcases hop with rfl | rfl | rfl | rfl | rfl | rfl | rfl | rfl | rfl | rfl | rfl <;> rfl

theorem sim_binop {op : Opcode} (hop : op ∈ binops) (hfr : fr.Fits m) (hg : GlobRel g rg) :
    Sim (NextRel m) (exec cls c m fr g op) (Ref.exec cls rc m fr.abs rg op) := by
  rw [ref_exec_binop hop]
  intro r hr
  rcases hs : fr.abs.stack with _ | ⟨b, _ | ⟨a, s⟩⟩
  · simp [Ref.Frame.binop, Ref.Frame.pop_of_nil hs, Except.map] at hr
  · simp [Ref.Frame.binop, Ref.Frame.pop_of_cons hs, Except.map] at hr
  · simp only [Ref.Frame.binop, Ref.Frame.pop_of_cons hs, Ref.Frame.pop_mk_cons, ok_bind, except_map_eq_ok,
      except_bind_eq_ok] at hr
    obtain ⟨f', ⟨v, hv, hp⟩, rfl⟩ := hr
    obtain ⟨hl, rfl⟩ := Ref.Frame.push_eq_ok.1 hp
    obtain ⟨h1, h2, h3, h4⟩ := hfr.top_two hs
    obtain ⟨w, hw, rfl⟩ := sim_arith hop a b v hv
    obtain ⟨hfit, hst⟩ := hfr.write (k := 2) { fr.setTop 2 w with stackSize := fr.stackSize - 1 } rfl
      (by simp [hs]) (by simp [hs] at hl ⊢; omega) (by dsimp only; omega)
    refine ⟨.next (fr.binResult w) g, by rw [exec_binop hop h3 h4, h1, h2, hw]; rfl,
      FrameRel.of (hfit.advance 1) rfl ?_ rfl, hg⟩
    exact hst.trans (by rw [hs]; rfl)

theorem sim_branchTo (hcode : m.code.length ≤ 2 ^ 64) (pc : Nat) :
    Sim Eq (branchTarget m pc) (Ref.branchTo m pc) := by
  refine (sim_byteAt m _).bind fun b1 _ h1 => ?_
  subst h1
  refine (sim_byteAt m _).bind fun b2 _ h2 => ?_
  subst h2
  intro t ht
  simp only at ht
  split at ht
  · rename_i hin
    cases ht
    refine ⟨_, rfl, ?_⟩
    simp only [jump, int16Of]
    rw [Int.emod_eq_of_lt hin.1 (by omega)]
  · cases ht

theorem sim_ifZero (hcode : m.code.length ≤ 2 ^ 64) (hfr : fr.Fits m) {p : BitVec 32 → Bool} {op : Opcode}
    (hp : ∀ a, p a = Ref.zeroTest op a.toInt) : Sim (FrameRel m) (ifCond m p fr) (fr.abs.ifZero m op) := by
  intro f' hf'
  rcases hs : fr.abs.stack with _ | ⟨a, s⟩
  · simp [Ref.Frame.ifZero, Ref.Frame.pop_of_nil hs] at hf'
  · simp only [Ref.Frame.ifZero, Ref.Frame.pop_of_cons hs, ok_bind, Ref.Frame.branch] at hf'
    obtain ⟨h1, h2, h3⟩ := hfr.top_one hs
    have hdrop : ∀ pc, FrameRel m { fr.drop 1 with programCounter := pc } { fr.abs with stack := s, pc := pc } := by
      intro pc
      obtain ⟨hfit, hst⟩ := hfr.shrink { fr.drop 1 with programCounter := pc } rfl (k := 1) (by simp [hs]) rfl
      exact FrameRel.of hfit rfl (by rw [hst, hs]; rfl) rfl
    rw [ifCond_ok h2 h3, h1, hp]
    split at hf'
    · rename_i hc
      rw [if_pos hc]
      obtain ⟨t, ht, rfl⟩ := except_map_eq_ok.1 hf'
      obtain ⟨t', ht', rfl⟩ := sim_branchTo hcode fr.programCounter t ht
      exact ⟨_, by rw [ht']; rfl, hdrop t'⟩
    · rename_i hc
      rw [if_neg hc]
      cases hf'
      exact ⟨_, rfl, hdrop _⟩

theorem sim_ifCmp (hcode : m.code.length ≤ 2 ^ 64) (hfr : fr.Fits m) {p : BitVec 32 → BitVec 32 → Bool}
    {op : Opcode} (hp : ∀ a b, p a b = Ref.cmpTest op a.toInt b.toInt) :
    Sim (FrameRel m) (ifCmp m p fr) (fr.abs.ifCmp m op) := by
  intro f' hf'
  rcases hs : fr.abs.stack with _ | ⟨b, _ | ⟨a, s⟩⟩
  · simp [Ref.Frame.ifCmp, Ref.Frame.pop_of_nil hs] at hf'
  · simp [Ref.Frame.ifCmp, Ref.Frame.pop_of_cons hs] at hf'
  · simp only [Ref.Frame.ifCmp, Ref.Frame.pop_of_cons hs, Ref.Frame.pop_mk_cons, ok_bind, Ref.Frame.branch] at hf'
    obtain ⟨h1, h2, h3, h4⟩ := hfr.top_two hs
    have hdrop : ∀ pc, FrameRel m { fr.drop 2 with programCounter := pc } { fr.abs with stack := s, pc := pc } := by
      intro pc
      obtain ⟨hfit, hst⟩ := hfr.shrink { fr.drop 2 with programCounter := pc } rfl (k := 2) (by simp [hs]) rfl
      exact FrameRel.of hfit rfl (by rw [hst, hs]; rfl) rfl
    rw [ifCmp_ok h3 h4, h1, h2, hp]
    split at hf'
    · rename_i hc
      rw [if_pos hc]
      obtain ⟨t, ht, rfl⟩ := except_map_eq_ok.1 hf'
      obtain ⟨t', ht', rfl⟩ := sim_branchTo hcode fr.programCounter t ht
      exact ⟨_, by rw [ht']; rfl, hdrop t'⟩
    · rename_i hc
      rw [if_neg hc]
      cases hf'
      exact ⟨_, rfl, hdrop _⟩

theorem sim_ineg (hfr : fr.Fits m) (hg : GlobRel g rg) :
    Sim (NextRel m) (exec cls c m fr g .ineg) (Ref.exec cls rc m fr.abs rg .ineg) := by
  intro r hr
  rcases hs : fr.abs.stack with _ | ⟨a, s⟩
  · simp [Ref.exec.eq_def, Ref.Frame.pop_of_nil hs, Except.map] at hr
  · simp only [Ref.exec.eq_def, Ref.Frame.pop_of_cons hs, ok_bind, except_map_eq_ok, except_bind_eq_ok] at hr
    obtain ⟨f', ⟨v, hv, hp⟩, rfl⟩ := hr
    obtain ⟨hx, rfl⟩ := Ref.int32_eq_ok.1 hv
    obtain ⟨hl, rfl⟩ := Ref.Frame.push_eq_ok.1 hp
    obtain ⟨h1, h2, h3⟩ := hfr.top_one hs
    have hne : a ≠ intMin := (neg_inRange_iff a).1 (by rwa [neg_one_toInt, Int.mul_neg_one])
    obtain ⟨hfit, hst⟩ := hfr.write (k := 1) (fr.setTop 1 (jvmNeg a)) rfl (by simp [hs])
      (by simp [hs]; have := hfr.room; simp [hs] at this; omega) (by simp [Frame.setTop])
    refine ⟨.next ((fr.setTop 1 (jvmNeg a)).advance 1) g, by rw [exec_ineg h2 h3, h1, if_neg hne], ?_, hg⟩
    exact FrameRel.of (hfit.advance 1) rfl (hst.trans (by rw [hs]; rfl)) rfl

theorem sim_dup (hfr : fr.Fits m) (hg : GlobRel g rg) :
    Sim (NextRel m) (exec cls c m fr g .dup) (Ref.exec cls rc m fr.abs rg .dup) := by
  rcases hs : fr.abs.stack with _ | ⟨v, s⟩
  · simp [Ref.exec.eq_def, Ref.Frame.pop_of_nil hs, Except.map]
  · obtain ⟨h1, h2, h3⟩ := hfr.top_one hs
    have hp : fr.peek 1 = .ok v := by rw [peek_ok (k := 1) (by omega) h2 h3, h1]
    simp only [exec.eq_def, Ref.exec.eq_def, Ref.Frame.pop_of_cons hs, ok_bind, hp]
    exact sim_go (sim_push ⟨hfr, rfl⟩ rfl) hg 1

theorem sim_iinc (hg : GlobRel g rg) (h : FrameRel m fr f) :
    Sim (NextRel m) (exec cls c m fr g .iinc) (Ref.exec cls rc m f rg .iinc) := by
  obtain ⟨hfr, rfl⟩ := h
  refine (sim_byteAt m _).bind fun i _ hi => ?_
  subst hi
  refine (sim_byteAt m _).bind fun b _ hb => ?_
  subst hb
  refine (sim_slot rfl _).bind fun x _ hx => ?_
  subst hx
  refine (sim_intResult _).bind fun v _ hv => ?_
  subst hv
  refine (sim_setSlot rfl _ _).bind fun l _ hl => ?_
  subst hl
  exact sim_ok ⟨FrameRel.of ⟨hfr.1, hfr.2, hfr.3⟩ rfl rfl rfl, hg⟩

theorem sim_return (hfr : fr.Fits m) (hg : GlobRel g rg) {op : Opcode} (hop : op = .ireturn ∨ op = .areturn) :
    Sim (NextRel m) (exec cls c m fr g op) (Ref.exec cls rc m fr.abs rg op) := by
  rcases hs : fr.abs.stack with _ | ⟨v, s⟩
  · rcases hop with rfl | rfl <;> simp [Ref.exec.eq_def, Ref.Frame.pop_of_nil hs]
  · obtain ⟨h1, h2, h3⟩ := hfr.top_one hs
    have hp : fr.peek 1 = .ok v := by rw [peek_ok (k := 1) (by omega) h2 h3, h1]
    rcases hop with rfl | rfl <;>
    · simp only [exec.eq_def, Ref.exec.eq_def, Ref.Frame.pop_of_cons hs, ok_bind, hp]
      exact sim_ok ⟨rfl, hg⟩

theorem printed_append_print (log : List Event) (v : BitVec 32) : printed (log ++ [.print v]) = printed log ++ [v] := by
  simp [printed]

theorem sim_invokevirtual (hfr : fr.Fits m) (hg : GlobRel g rg) :
    Sim (NextRel m) (exec cls c m fr g .invokevirtual) (Ref.exec cls rc m fr.abs rg .invokevirtual) := by
  rcases hs : fr.abs.stack with _ | ⟨v, s⟩
  · simp [Ref.exec.eq_def, Ref.Frame.pop_of_nil hs]
  · obtain ⟨h1, h2, h3⟩ := hfr.top_one hs
    have hp : fr.peek 1 = .ok v := by rw [peek_ok (k := 1) (by omega) h2 h3, h1]
    simp only [exec.eq_def, Ref.exec.eq_def, Ref.Frame.pop_of_cons hs, ok_bind, hp]
    obtain ⟨hfit, hst⟩ := hfr.shrink (fr.drop 1) rfl (k := 1) (by simp [hs]) rfl
    exact sim_ok ⟨FrameRel.of (hfit.advance 3) rfl (hst.trans (by rw [hs]; rfl)) rfl,
      hg.1, by rw [printed_append_print, hg.2]⟩

/-! ## The heap -/

theorem sim_deref (hg : GlobRel g rg) (h : BitVec 32) :
    Sim (fun arr a => arr = Ref.IntArray.slots a) (heapGet g.heap h) (Ref.deref rg h) := by
  intro a ha
  unfold Ref.deref at ha
  split_ifs at ha with h0
  cases hh : rg.heap[h.toNat]? with
  | none => rw [hh] at ha; cases ha
  | some a' =>
    rw [hh] at ha
    cases ha
    exact ⟨_, by rw [heapGet, if_pos h0, hg.1, List.getElem?_map, hh]; rfl, rfl⟩

theorem one_toInt : (1 : BitVec 32).toInt = 1 := by decide

/-- An index inside an array is one below a slot of `execute`'s array, and `index + 1` fits. -/
theorem cAdd_index {a : Ref.IntArray} {i : BitVec 32} (h0 : 0 ≤ i.toInt) (hi : i.toInt < a.elems.length) :
    ∃ j, cAdd i 1 = .ok j ∧ j.toInt = i.toInt + 1 ∧ 0 ≤ j.toInt ∧ j.toInt < a.slots.length := by
  have := a.fits
  have hr : InRange (i.toInt + 1) := by unfold InRange; omega
  refine ⟨_, by rw [cAdd, one_toInt, intResult_of_inRange hr], toInt_wrap hr, ?_⟩
  rw [toInt_wrap hr, Ref.IntArray.slots_length]
  omega

theorem sim_arraylength (hfr : fr.Fits m) (hg : GlobRel g rg) :
    Sim (NextRel m) (exec cls c m fr g .arraylength) (Ref.exec cls rc m fr.abs rg .arraylength) := by
  intro r hr
  rcases hs : fr.abs.stack with _ | ⟨h, s⟩
  · simp [Ref.exec.eq_def, Ref.Frame.pop_of_nil hs, Except.map] at hr
  · simp only [Ref.exec.eq_def, Ref.Frame.pop_of_cons hs, ok_bind, except_map_eq_ok, except_bind_eq_ok] at hr
    obtain ⟨f', ⟨a, ha, hp⟩, rfl⟩ := hr
    obtain ⟨hl, rfl⟩ := Ref.Frame.push_eq_ok.1 hp
    obtain ⟨h1, h2, h3⟩ := hfr.top_one hs
    obtain ⟨_, hget, rfl⟩ := sim_deref hg h a ha
    obtain ⟨hfit, hst⟩ := hfr.write (k := 1) (fr.setTop 1 (BitVec.ofNat 32 a.elems.length)) rfl
      (by simp [hs]) (by simp [hs]; have := hfr.room; simp [hs] at this; omega) (by simp [Frame.setTop])
    refine ⟨.next ((fr.setTop 1 (BitVec.ofNat 32 a.elems.length)).advance 1) g, ?_,
      FrameRel.of (hfit.advance 1) rfl (hst.trans (by rw [hs]; rfl)) rfl, hg⟩
    simp only [exec.eq_def, arraylength, peek_ok (k := 1) (by omega) h2 h3, h1, ok_bind, hget,
      Ref.IntArray.readSlot_zero, poke_ok (k := 1) h2 (by omega)]
    rfl

theorem sim_iaload (hfr : fr.Fits m) (hg : GlobRel g rg) :
    Sim (NextRel m) (exec cls c m fr g .iaload) (Ref.exec cls rc m fr.abs rg .iaload) := by
  intro r hr
  rcases hs : fr.abs.stack with _ | ⟨i, _ | ⟨h, s⟩⟩
  · simp [Ref.exec.eq_def, Ref.Frame.pop_of_nil hs, Except.map] at hr
  · simp [Ref.exec.eq_def, Ref.Frame.pop_of_cons hs, Except.map] at hr
  · simp only [Ref.exec.eq_def, Ref.Frame.pop_of_cons hs, Ref.Frame.pop_mk_cons, ok_bind, except_map_eq_ok,
      except_bind_eq_ok] at hr
    obtain ⟨f', ⟨a, ha, v, hv, hp⟩, rfl⟩ := hr
    obtain ⟨h1, h2, h3, h4⟩ := hfr.top_two hs
    obtain ⟨_, hget, rfl⟩ := sim_deref hg h a ha
    unfold Ref.IntArray.get at hv
    split_ifs at hv with hi
    cases hv
    obtain ⟨j, hj, hjv, hj0, hjl⟩ := cAdd_index hi.1 hi.2
    obtain ⟨hfit, hst⟩ := hfr.shrink (fr.drop 2) rfl (k := 2) (by simp [hs]) rfl
    obtain ⟨fr', hpush, hrel⟩ := sim_push (FrameRel.of hfit rfl (hst.trans (by rw [hs]; rfl)) rfl) rfl f' hp
    refine ⟨.next (fr'.advance 1) g, ?_, ⟨hrel.1.advance 1, by rw [Frame.abs_advance, hrel.2]⟩, hg⟩
    have hread : readSlot a.slots j.toInt .heap = .ok (a.elems.getD i.toNat 0) := by
      have := toNat_eq_toInt hi.1
      rw [readSlot_ok hj0 hjl, hjv, show (i.toInt + 1).toNat = i.toNat + 1 by omega]
      rfl
    simp only [exec.eq_def, iaload, peek_ok (k := 1) (by omega) (by omega) h4, peek_ok (k := 2) (by omega) h3 h4, h1, h2,
      ok_bind, hget, hj, hread, hpush]
    rfl

theorem sim_iastore (hfr : fr.Fits m) (hg : GlobRel g rg) :
    Sim (NextRel m) (exec cls c m fr g .iastore) (Ref.exec cls rc m fr.abs rg .iastore) := by
  intro r hr
  rcases hs : fr.abs.stack with _ | ⟨v, _ | ⟨i, _ | ⟨h, s⟩⟩⟩
  · simp [Ref.exec.eq_def, Ref.iastore, Ref.Frame.pop_of_nil hs] at hr
  · simp [Ref.exec.eq_def, Ref.iastore, Ref.Frame.pop_of_cons hs] at hr
  · simp [Ref.exec.eq_def, Ref.iastore, Ref.Frame.pop_of_cons hs] at hr
  · simp only [Ref.exec.eq_def, Ref.iastore, Ref.Frame.pop_of_cons hs, Ref.Frame.pop_mk_cons, ok_bind,
      except_bind_eq_ok, pure_eq_ok_iff] at hr
    obtain ⟨a, ha, a', hset, rfl⟩ := hr
    have hl : fr.abs.stack.length = s.length + 3 := by simp [hs]
    have hp1 : fr.peek 1 = .ok v := by rw [hfr.peek_eq (le_refl 1) (by omega), hs]; rfl
    have hp2 : fr.peek 2 = .ok i := by rw [hfr.peek_eq (by omega) (by omega), hs]; rfl
    have hp3 : fr.peek 3 = .ok h := by rw [hfr.peek_eq (by omega) (by omega), hs]; rfl
    obtain ⟨_, hget, rfl⟩ := sim_deref hg h a ha
    unfold Ref.IntArray.set at hset
    split_ifs at hset with hi
    cases hset
    obtain ⟨j, hj, hjv, hj0, hjl⟩ := cAdd_index hi.1 hi.2
    obtain ⟨hfit, hst⟩ := hfr.shrink (fr.drop 3) rfl (k := 3) (by omega) rfl
    have hw : writeSlot a.slots j.toInt v .heap = .ok (a.slots.set (i.toNat + 1) v) := by
      have := toNat_eq_toInt hi.1
      rw [writeSlot_ok hj0 hjl, hjv, show (i.toInt + 1).toNat = i.toNat + 1 by omega]
    refine ⟨.next ((fr.drop 3).advance 1) ⟨g.heap.set h.toNat (a.slots.set (i.toNat + 1) v), g.log⟩, ?_,
      FrameRel.of (hfit.advance 1) rfl (hst.trans (by rw [hs]; rfl)) rfl, ?_, hg.2⟩
    · simp only [exec.eq_def, iastore, hp1, hp2, hp3, ok_bind, hget, hj, hw]
      rfl
    · rw [hg.1, List.map_set]
      simp only [Ref.IntArray.slots, List.length_set, List.set_cons_succ]

theorem sim_newarray (hfr : fr.Fits m) (hg : GlobRel g rg) :
    Sim (NextRel m) (exec cls c m fr g .newarray) (Ref.exec cls rc m fr.abs rg .newarray) := by
  intro r hr
  rcases hs : fr.abs.stack with _ | ⟨count, s⟩
  · simp [Ref.exec.eq_def, Ref.newarray, Ref.Frame.pop_of_nil hs] at hr
  · simp only [Ref.exec.eq_def, Ref.newarray, Ref.Frame.pop_of_cons hs, ok_bind, except_bind_eq_ok, Ref.check_eq_ok] at hr
    obtain ⟨_, h0, hr⟩ := hr
    split_ifs at hr with hc
    obtain ⟨f', hp, hr⟩ := except_bind_eq_ok.1 hr
    cases hr
    obtain ⟨hl, rfl⟩ := Ref.Frame.push_eq_ok.1 hp
    obtain ⟨h1, h2, h3⟩ := hfr.top_one hs
    have hlen : g.heap.length = rg.heap.length := by rw [hg.1, List.length_map]
    obtain ⟨hfit, hst⟩ := hfr.write (k := 1) (fr.setTop 1 (BitVec.ofNat 32 g.heap.length)) rfl
      (by simp [hs]) (by simp [hs]; have := hfr.room; simp [hs] at this; omega) (by simp [Frame.setTop])
    refine ⟨.next ((fr.setTop 1 (BitVec.ofNat 32 g.heap.length)).advance 2)
        ⟨g.heap ++ [count :: List.replicate count.toNat 0], g.log⟩,
      by rw [exec_newarray h2 h3, h1, if_pos (by unfold InRange; omega), if_neg (by omega)],
      FrameRel.of (hfit.advance 2) rfl (hst.trans (by rw [hs, hlen]; rfl)) rfl, ?_, hg.2⟩
    rw [hg.1, List.map_append]
    simp only [List.map_cons, List.map_nil, Ref.IntArray.slots, Ref.IntArray.zeros, List.length_replicate,
      BitVec.ofNat_toNat, BitVec.setWidth_eq]

/-! ## Calls -/

/-- Callees agree wherever their heaps do. -/
def CalleeSim (cls : ClassFile) (c : Method → List (BitVec 32) → Glob → Ending × Glob)
    (rc : Method → List (BitVec 32) → Ref.Glob → Ref.Outcome × Ref.Glob) : Prop :=
  ∀ meth ∈ cls.methods, ∀ lq g rg, GlobRel g rg → Agrees (c meth lq g) (rc meth lq rg)

theorem drop_set_self {v : BitVec 32} : ∀ {l : List (BitVec 32)} {i : Nat}, i < l.length →
    (l.set i v).drop i = v :: l.drop (i + 1)
  | _ :: _, 0, _ => rfl
  | _ :: l, i + 1, h => drop_set_self (l := l) (by simp at h; omega)

/-- The `for` loop of `invokestatic` pops the top `k` values into slots `k - 1`, ..., 0. -/
theorem popParameters_eq {m : Method} {k : Nat} : ∀ {fr : Frame} {lq : List (BitVec 32)}, fr.Fits m →
    k ≤ fr.abs.stack.length → k ≤ lq.length →
    popParameters k lq fr = .ok ((fr.abs.stack.take k).reverse ++ lq.drop k, fr.drop k) := by
  induction k with
  | zero => intro fr lq _ _ _; simp [popParameters, Frame.drop]
  | succ i ih =>
    intro fr lq hfr hk hl
    rcases hs : fr.abs.stack with _ | ⟨v, s⟩
    · simp [hs] at hk
    · obtain ⟨h1, h2, h3⟩ := hfr.top_one hs
      obtain ⟨hfit, hst⟩ := hfr.shrink (fr.drop 1) rfl (k := 1) (by simp [hs]) rfl
      have hst' : (fr.drop 1).abs.stack = s := by rw [hst, hs]; rfl
      rw [hs] at hk
      rw [popParameters, peek_ok (k := 1) (by omega) h2 h3, h1, ok_bind, writeSlot_nat (by omega), ok_bind,
        ih hfit (by rw [hst']; simp at hk; omega) (by simp; omega), hst', Frame.drop_drop,
        drop_set_self (by omega), List.take_succ_cons, List.reverse_cons, List.append_assoc, Nat.add_comm 1 i]
      rfl

/-- After the callee `invokestatic` always goes on or stops, never faults. -/
theorem invokestatic_ok (x : Ending × Glob) (fr : Frame) :
    ∃ r, (match x with
      | (.returned none, g') => pure (.next (fr.advance 3) g')
      | (.returned (some v), g') =>
        match fr.push v with
        | .ok fr => pure (.next (fr.advance 3) g')
        | .error f => pure (.done (.fault f) g')
      | (e, g') => pure (.done e g') : Except Fault Next) = .ok r := by
  rcases x with ⟨_ | _ | _, g'⟩
  · rename_i v
    cases v with
    | none => exact ⟨_, rfl⟩
    | some v =>
      dsimp only
      cases fr.push v <;> exact ⟨_, rfl⟩
  all_goals exact ⟨_, rfl⟩

theorem sim_invokestatic (hfr : fr.Fits m) (hg : GlobRel g rg) (hc : CalleeSim cls c rc) :
    Sim (NextRel m) (invokestatic cls c m fr g) (Ref.invoke cls rc m fr.abs rg) := by
  refine (sim_byteAt m _).bind fun b1 _ h1 => ?_
  subst h1
  refine (sim_byteAt m _).bind fun b2 _ h2 => ?_
  subst h2
  cases hf : findMethodFromIndex (b1.toNat * 256 + b2.toNat) cls with
  | none => simp
  | some meth =>
    intro r hr
    simp only [except_bind_eq_ok, Ref.check_eq_ok] at hr
    obtain ⟨_, ⟨hk, hkl⟩, hr⟩ := hr
    simp only
    rw [popParameters_eq hfr hk (by simp; omega), ok_bind, List.drop_replicate]
    have hagree := hc meth (findMethodFromIndex_mem hf) ((fr.abs.stack.take meth.parameters).reverse ++
      List.replicate (meth.maxLocals - meth.parameters) 0) g rg hg
    obtain ⟨hfit, hst⟩ := hfr.shrink (fr.drop meth.parameters) rfl hk rfl
    have hd : FrameRel m (fr.drop meth.parameters) { fr.abs with stack := fr.abs.stack.drop meth.parameters } :=
      FrameRel.of hfit rfl hst rfl
    revert hr hagree
    rcases rc meth _ rg with ⟨o, rg'⟩
    rcases c meth _ g with ⟨e, g'⟩
    intro hr hagree
    cases o with
    | stopped s =>
      cases hr
      obtain ⟨r', hr'⟩ := invokestatic_ok (e, g') (fr.drop meth.parameters)
      exact ⟨r', hr', NextRel.stopped _ _ _⟩
    | outOfFuel =>
      cases hr
      cases e <;> simp only [Agrees] at hagree
      exact ⟨_, rfl, hagree⟩
    | returned w =>
      rcases e with v | _ | _ <;> simp only [Agrees] at hagree
      obtain ⟨rfl, hg'⟩ := hagree
      cases v with
      | none =>
        cases hr
        exact ⟨_, rfl, ⟨hd.1.advance 3, by rw [Frame.abs_advance, hd.2]⟩, hg'⟩
      | some v =>
        obtain ⟨f', hp, hr'⟩ := except_bind_eq_ok.1 hr
        cases hr'
        obtain ⟨fr', hpush, hrel⟩ := sim_push hd rfl f' hp
        exact ⟨.next (fr'.advance 3) g', by simp only [hpush]; rfl,
          ⟨hrel.1.advance 3, by rw [Frame.abs_advance, hrel.2]⟩, hg'⟩

/-- The call protocol of spec §8: the callee gets the caller's top `k = meth.parameters` values
    in the order they were pushed (the first in slot 0) and zeros in its other locals, and what
    it returns, if anything, replaces the `k` values on the caller's stack. -/
theorem invokestatic_copy_in_out {b1 b2 : UInt8} {meth : Method} {r : Option (BitVec 32)} {g' : Glob}
    (hfr : fr.Fits m) (h1 : codeAt m (fr.programCounter + 1) = .ok b1)
    (h2 : codeAt m (fr.programCounter + 2) = .ok b2)
    (hf : findMethodFromIndex (b1.toNat * 256 + b2.toNat) cls = some meth)
    (hk : meth.parameters ≤ fr.abs.stack.length) (hl : meth.parameters ≤ meth.maxLocals)
    (hroom : (r.toList ++ fr.abs.stack.drop meth.parameters).length ≤ m.maxStack)
    (hc : c meth ((fr.abs.stack.take meth.parameters).reverse ++
      List.replicate (meth.maxLocals - meth.parameters) 0) g = (.returned r, g')) :
    ∃ fr', invokestatic cls c m fr g = .ok (.next fr' g') ∧
      FrameRel m fr' ⟨fr.programCounter + 3, r.toList ++ fr.abs.stack.drop meth.parameters, fr.locals⟩ := by
  have hp : popParameters meth.parameters (List.replicate meth.maxLocals 0) fr =
      .ok ((fr.abs.stack.take meth.parameters).reverse ++ List.replicate (meth.maxLocals - meth.parameters) 0,
        fr.drop meth.parameters) := by
    rw [popParameters_eq hfr hk (by simp; omega), List.drop_replicate]
  obtain ⟨hfit, hst⟩ := hfr.shrink (fr.drop meth.parameters) rfl hk rfl
  have hd : FrameRel m (fr.drop meth.parameters) { fr.abs with stack := fr.abs.stack.drop meth.parameters } :=
    FrameRel.of hfit rfl hst rfl
  cases r with
  | none =>
    refine ⟨(fr.drop meth.parameters).advance 3, ?_, hd.1.advance 3, by rw [Frame.abs_advance, hd.2]; rfl⟩
    simp only [invokestatic, h1, h2, ok_bind, hf, hp, hc]
    rfl
  | some v =>
    obtain ⟨fr', hpush, hrel⟩ := sim_push hd rfl _ (Ref.Frame.push_eq_ok.2 ⟨by simp at hroom ⊢; omega, rfl⟩)
    refine ⟨fr'.advance 3, ?_, hrel.1.advance 3, by rw [Frame.abs_advance, hrel.2]; rfl⟩
    simp only [invokestatic, h1, h2, ok_bind, hf, hp, hc, hpush]
    rfl

/-- `invokestatic #1` and `return`: a call of `add2`. -/
def callAddMethod : Method := ⟨[0xb8, 0x00, 0x01, 0xb1], 2, 0, 0, false⟩

/-- `static int add2(int a, int b) { return a + b; }`: `iload_0; iload_1; iadd; ireturn`, with a
    third local. -/
def add2Method : Method := ⟨[0x1a, 0x1b, 0x60, 0xac], 2, 3, 2, true⟩

/-- Constant-pool slot 1 refers to `add2`. -/
def callAddClass : ClassFile := ⟨[.methodref 1], [callAddMethod, add2Method]⟩

/-- The caller at its call, 7 pushed before 8. -/
def callAddFrame : Frame := ⟨0, [7, 8], 2, []⟩

/-- `add2`, run by `execute` itself, gets the locals `[7, 8, 0]`, and 15 replaces the two. -/
theorem callAdd_copy_in_out :
    callAddFrame.Fits callAddMethod ∧ codeAt callAddMethod (0 + 1) = .ok 0 ∧ codeAt callAddMethod (0 + 2) = .ok 1 ∧
    findMethodFromIndex ((0 : UInt8).toNat * 256 + (1 : UInt8).toNat) callAddClass = some add2Method ∧
    add2Method.parameters ≤ callAddFrame.abs.stack.length ∧ add2Method.parameters ≤ add2Method.maxLocals ∧
    ((some (15 : BitVec 32)).toList ++ callAddFrame.abs.stack.drop add2Method.parameters).length ≤
      callAddMethod.maxStack ∧
    run callAddClass 4 add2Method (Frame.init add2Method ((callAddFrame.abs.stack.take add2Method.parameters).reverse ++
      List.replicate (add2Method.maxLocals - add2Method.parameters) 0)) ⟨[], []⟩ = (.returned (some 15), ⟨[], []⟩) ∧
    ∃ fr', invokestatic callAddClass (fun m' l g' => run callAddClass 4 m' (Frame.init m' l) g') callAddMethod
        callAddFrame ⟨[], []⟩ = .ok (.next fr' ⟨[], []⟩) ∧
      FrameRel callAddMethod fr' ⟨0 + 3, (some 15).toList ++ callAddFrame.abs.stack.drop add2Method.parameters, []⟩ :=
  ⟨⟨rfl, by decide, by decide⟩, rfl, rfl, rfl, by decide, by decide, by decide, by decide,
    invokestatic_copy_in_out ⟨rfl, by decide, by decide⟩ rfl rfl rfl (by decide) (by decide) (by decide) (by decide)⟩

theorem sim_poolConstant (cls : ClassFile) (i : Nat) : Sim Eq (integerConstant cls i) (Ref.poolConstant cls i) := by
  intro v hv
  cases i with
  | zero => cases hv
  | succ i =>
    simp only [Ref.poolConstant, Nat.add_sub_cancel, Nat.succ_ne_zero, if_false] at hv
    refine ⟨v, ?_, rfl⟩
    rcases hc : cls.constantPool[i]? with _ | ⟨w | _ | _⟩ <;> simp only [hc] at hv <;> cases hv
    simp [integerConstant, hc]

theorem sim_exec (hcode : m.code.length ≤ 2 ^ 64) (hfr : fr.Fits m) (hg : GlobRel g rg) (hc : CalleeSim cls c rc)
    (op : Opcode) : Sim (NextRel m) (exec cls c m fr g op) (Ref.exec cls rc m fr.abs rg op) := by
  have h : FrameRel m fr fr.abs := ⟨hfr, rfl⟩
  cases op
  case nop => exact sim_ok ⟨⟨hfr.advance 1, rfl⟩, hg⟩
  case getstatic => exact sim_ok ⟨⟨hfr.advance 3, rfl⟩, hg⟩
  case iconst_m1 | iconst_0 | iconst_1 | iconst_2 | iconst_3 | iconst_4 | iconst_5 =>
    exact sim_go (sim_push h (by decide)) hg 1
  case bipush => exact (sim_byteAt m _).bind fun b _ hb => by subst hb; exact sim_go (sim_push h rfl) hg 2
  case sipush =>
    exact (sim_byteAt m _).bind fun b1 _ h1 => by
      subst h1
      exact (sim_byteAt m _).bind fun b2 _ h2 => by subst h2; exact sim_go (sim_push h rfl) hg 3
  case ldc =>
    exact (sim_byteAt m _).bind fun b _ hb => by
      subst hb
      exact (sim_poolConstant cls _).bind fun v _ hv => by subst hv; exact sim_go (sim_push h rfl) hg 2
  case iload | aload => exact (sim_byteAt m _).bind fun b _ hb => by subst hb; exact sim_go (sim_load h rfl) hg 2
  case iload_0 | iload_1 | iload_2 | iload_3 | aload_0 | aload_1 | aload_2 | aload_3 =>
    exact sim_go (sim_load h (by decide)) hg 1
  case istore | astore => exact (sim_byteAt m _).bind fun b _ hb => by subst hb; exact sim_go (sim_store h rfl) hg 2
  case istore_0 | istore_1 | istore_2 | istore_3 | astore_0 | astore_1 | astore_2 | astore_3 =>
    exact sim_go (sim_store h (by decide)) hg 1
  case iinc => exact sim_iinc hg h
  case iadd | isub | imul | idiv | irem | ishl | ishr | iushr | iand | ior | ixor =>
    exact sim_binop (by decide) hfr hg
  case ineg => exact sim_ineg hfr hg
  case dup => exact sim_dup hfr hg
  case ifeq | ifne =>
    exact Sim.map (sim_ifZero hcode hfr fun a => by simp [Ref.zeroTest, toInt_eq_zero_iff, bne, Bool.beq_eq_decide_eq]) fun _ _ hr => ⟨hr, hg⟩
  case iflt | ifge | ifgt | ifle => exact Sim.map (sim_ifZero hcode hfr fun _ => rfl) fun _ _ hr => ⟨hr, hg⟩
  case if_icmpeq | if_icmpne =>
    exact Sim.map (sim_ifCmp hcode hfr fun a b => by simp [Ref.cmpTest, BitVec.toInt_inj, bne, Bool.beq_eq_decide_eq]) fun _ _ hr => ⟨hr, hg⟩
  case if_icmplt | if_icmpge | if_icmpgt | if_icmple =>
    exact Sim.map (sim_ifCmp hcode hfr fun _ _ => rfl) fun _ _ hr => ⟨hr, hg⟩
  case goto =>
    exact (sim_branchTo hcode _).bind fun t _ ht => by
      subst ht; exact sim_ok ⟨FrameRel.of ⟨hfr.1, hfr.2, hfr.3⟩ rfl rfl rfl, hg⟩
  case ireturn => exact sim_return hfr hg (.inl rfl)
  case areturn => exact sim_return hfr hg (.inr rfl)
  case return_ => exact sim_ok ⟨rfl, hg⟩
  case invokevirtual => exact sim_invokevirtual hfr hg
  case invokestatic => exact sim_invokestatic hfr hg hc
  case newarray => exact sim_newarray hfr hg
  case arraylength => exact sim_arraylength hfr hg
  case iaload => exact sim_iaload hfr hg
  case iastore => exact sim_iastore hfr hg

end Exec

/-! ## Runs -/

theorem sim_step {cls : ClassFile} {c : Method → List (BitVec 32) → Glob → Ending × Glob}
    {rc : Method → List (BitVec 32) → Ref.Glob → Ref.Outcome × Ref.Glob} {m : Method} {fr : Frame} {g : Glob}
    {rg : Ref.Glob} (hcode : m.code.length ≤ 2 ^ 64) (hfr : fr.Fits m) (hg : GlobRel g rg)
    (hc : CalleeSim cls c rc) : Sim (NextRel m) (step cls c m fr g) (Ref.step cls rc m fr.abs rg) := by
  refine (sim_byteAt m _).bind fun b _ hb => ?_
  subst hb
  cases Opcode.ofByte b with
  | none => exact sim_error
  | some op => exact (sim_exec hcode hfr hg hc op).map_left fun _ _ h => h.record

/-- Every run of `execute`'s loop agrees with the reference's run on the same fuel, at any depth of
    calls, unless the reference stops. -/
theorem sim_run {cls : ClassFile} (hcls : ∀ meth ∈ cls.methods, meth.code.length ≤ 2 ^ 64) (n : Nat) :
    ∀ (m : Method) (fr : Frame) (g : Glob) (rg : Ref.Glob), m.code.length ≤ 2 ^ 64 → fr.Fits m → GlobRel g rg →
      Agrees (run cls n m fr g) (Ref.run cls n m fr.abs rg) := by
  induction n with
  | zero => intro m fr g rg _ _ hg; exact hg
  | succ n ih =>
    intro m fr g rg hcode hfr hg
    have hc : CalleeSim cls (fun m' l g' => run cls n m' (Frame.init m' l) g')
        (fun m' l g' => Ref.run cls n m' ⟨0, [], l⟩ g') :=
      fun meth hmeth lq g rg hg => ih meth _ g rg (hcls meth hmeth) (Frame.init_fits meth lq) hg
    have hs := sim_step hcode hfr hg hc
    rw [run, Ref.run]
    cases hr : Ref.step cls (fun m' l g' => Ref.run cls n m' ⟨0, [], l⟩ g') m fr.abs rg with
    | error s => exact Agrees.stopped _ _ _
    | ok rn =>
      obtain ⟨cn, hcs, hrel⟩ := hs rn hr
      rw [if_pos (show fr.programCounter < m.code.length from Ref.step_pc hr), hcs]
      cases rn with
      | next f rg' =>
        cases cn with
        | next fr' g' =>
          obtain ⟨⟨hfit, rfl⟩, hg'⟩ := hrel
          exact ih m fr' g' rg' hcode hfit hg'
        | done e g' => exact hrel.elim
      | done o rg' =>
        cases cn with
        | next fr' g' =>
          cases o
          case stopped s => exact Agrees.stopped _ _ _
          all_goals exact hrel.elim
        | done e g' => exact hrel.done_done

/-- `execute` refines the reference: on the same fuel, with related heaps and logs, a call
    that the reference does not stop ends as the reference's does (the same value, or out of
    fuel), with the reference's heap and printed lines. -/
theorem execute_refines_reference (cls : ClassFile) (m : Method) (n : Nat) (locals : List (BitVec 32))
    (g : Glob) (rg : Ref.Glob) (hcls : ∀ meth ∈ cls.methods, meth.code.length ≤ 2 ^ 64)
    (hm : m.code.length ≤ 2 ^ 64) (hg : GlobRel g rg) :
    Agrees (execute cls n m locals g) (Ref.execute cls n m locals rg) :=
  sim_run hcls n m _ g rg hm (Frame.init_fits m locals) hg

/-- `callOne` under the reference returns no value, and `execute` with it. -/
theorem callOne_refines :
    (∀ meth ∈ callOneClass.methods, meth.code.length ≤ 2 ^ 64) ∧ callOne.code.length ≤ 2 ^ 64 ∧
      GlobRel ⟨[], []⟩ ⟨[], []⟩ ∧ (Ref.execute callOneClass 3 callOne [] ⟨[], []⟩).1 = .returned none ∧
      Agrees (execute callOneClass 3 callOne [] ⟨[], []⟩) (Ref.execute callOneClass 3 callOne [] ⟨[], []⟩) :=
  ⟨by decide, by decide, ⟨rfl, rfl⟩, rfl,
    execute_refines_reference _ _ _ _ _ _ (by decide) (by decide) ⟨rfl, rfl⟩⟩

end Cs24.Jvm
