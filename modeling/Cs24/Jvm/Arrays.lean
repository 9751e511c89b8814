/-
  Cs24.Jvm.Arrays — the heap layout of `newarray`, `iastore`, `iaload` and `arraylength`
  implements Java `int` arrays.

  An array is `count + 1` slots: slot 0 holds the count, slot `i + 1` element `i`. The
  loop records every array instruction it executes, across nested calls, which share the
  heap, reading the access off the frames before and after the pass (`observe`): the
  handle, index and value an `iastore` popped, the value an `iaload` or `arraylength`
  pushed, the handle a `newarray` pushed. The record depends on what the pass did to the
  frame, not on the handler. `Effect` says once what one pass can do to the heap and the
  record; `HeapInv` says the heap is what the record wrote (`layout`: the count, then the
  last value stored at each index or 0).

  Proved (`array_law`): in every run from an empty heap whose element accesses stay in
  `[0, count)` (`InBounds`), every `arraylength` executed pushes the count its array was
  allocated with and every `iaload` executed pushes the value of the last `iastore`
  executed to that slot, or 0 (`ArrayLaw`). The hypothesis is needed: `iastore` at index
  -1 writes slot 0, the count. Along the way, `run_extends`: whatever a run does and however
  it ends, no array is freed, moved or resized, so every handle stays valid across nested
  calls, and the record only grows.
-/

import Cs24.Jvm.Dispatch

namespace Cs24.Jvm

/-! ## What a pass does to the heap and the log -/

/-- The heap and log a pass leaves. -/
def Next.glob : Next → Glob
  | .next _ g => g
  | .done _ g => g

/-- What one pass, with the access the loop records for it, can do to the heap and the log. -/
inductive Effect (cls : ClassFile) (callee : Method → List (BitVec 32) → Glob → Ending × Glob) (g : Glob) :
    Glob → Prop
  | same : Effect cls callee g g
  | print (v : BitVec 32) : Effect cls callee g { g with log := g.log ++ [.print v] }
  | newarray (count : BitVec 32) : 0 ≤ count.toInt →
      Effect cls callee g ⟨g.heap ++ [count :: List.replicate count.toNat 0],
        g.log ++ [.newarray (BitVec.ofNat 32 g.heap.length).toNat count]⟩
  | arraylength (ref : BitVec 32) (arr : List (BitVec 32)) : heapGet g.heap ref = .ok arr → 0 < arr.length →
      Effect cls callee g { g with log := g.log ++ [.arraylength ref.toNat (arr.getD 0 0)] }
  | iastore (ref index value : BitVec 32) (arr : List (BitVec 32)) : heapGet g.heap ref = .ok arr →
      InRange (index.toInt + 1) → 0 ≤ index.toInt + 1 → index.toInt + 1 < arr.length →
      Effect cls callee g ⟨g.heap.set ref.toNat (arr.set (index.toInt + 1).toNat value),
        g.log ++ [.iastore ref.toNat index value]⟩
  | iaload (ref index : BitVec 32) (arr : List (BitVec 32)) : heapGet g.heap ref = .ok arr →
      InRange (index.toInt + 1) → 0 ≤ index.toInt + 1 → index.toInt + 1 < arr.length →
      Effect cls callee g { g with log := g.log ++ [.iaload ref.toNat index (arr.getD (index.toInt + 1).toNat 0)] }
  | call (meth : Method) (lq : List (BitVec 32)) : meth ∈ cls.methods → Effect cls callee g (callee meth lq g).2

section Effects
variable {cls : ClassFile} {callee : Method → List (BitVec 32) → Glob → Ending × Glob} {m : Method}
  {fr : Frame} {g : Glob}

theorem intResult_eq_ok {x : Int} {v : BitVec 32} (h : intResult x = .ok v) : InRange x ∧ v = wrap x := by
  unfold intResult at h
  split_ifs at h with hx
  · exact ⟨hx, (Except.ok.inj h).symm⟩

theorem assertThat_eq_ok {c : Prop} [Decidable c] {u : Unit} (h : assertThat c = .ok u) : c := by
  unfold assertThat at h
  split_ifs at h with hc
  · exact hc

theorem cAdd_one_eq_ok {a c : BitVec 32} (h : cAdd a 1 = .ok c) : InRange (a.toInt + 1) ∧ c.toInt = a.toInt + 1 := by
  obtain ⟨hr, rfl⟩ := intResult_eq_ok h
  have : (1 : BitVec 32).toInt = 1 := by decide
  rw [this] at hr ⊢
  exact ⟨hr, toInt_wrap hr⟩

/-- An instruction other than the four array instructions records nothing. -/
theorem wp_record_of_not_array {op : Opcode} {x : Except Fault Next} {post : Next → Prop} {err : Fault → Prop}
    (hx : Wp x post err) (h : ∀ fr', observe op fr fr' = []) : Wp (x.map (Next.record op fr)) post err := by
  rcases x with _ | _ | _ <;> simpa [h] using hx

theorem newarray_effect :
    Wp ((newarray fr g).map (Next.record .newarray fr)) (fun r => Effect cls callee g r.glob) (fun _ => True) := by
  simp only [newarray, wp_map, wp_bind]
  simp only [wp_iff_ok]
  intro count hcount c1 hc1 _ ha fr' hfr' r hr
  rw [pure_eq_ok_iff] at hr
  subst hr
  have := cAdd_one_eq_ok hc1
  have := assertThat_eq_ok ha
  simp only [record_next, Next.glob, observe, advance_top, (poke_eq_ok hfr').1, ← peek_eq_top hcount]
  exact .newarray count (by omega)

theorem arraylength_effect :
    Wp ((arraylength fr g).map (Next.record .arraylength fr)) (fun r => Effect cls callee g r.glob) (fun _ => True) := by
  simp only [arraylength, wp_map, wp_bind]
  simp only [wp_iff_ok]
  intro ref href arr harr len hlen fr' hfr' r hr
  rw [pure_eq_ok_iff] at hr
  subst hr
  obtain ⟨-, hl, rfl⟩ := readSlot_eq_ok hlen
  simp only [record_next, Next.glob, observe, advance_top, (poke_eq_ok hfr').1, ← peek_eq_top href]
  exact .arraylength ref arr harr (by simpa using hl)

theorem iastore_effect :
    Wp ((iastore fr g).map (Next.record .iastore fr)) (fun r => Effect cls callee g r.glob) (fun _ => True) := by
  simp only [iastore, wp_map, wp_bind]
  simp only [wp_iff_ok]
  intro value hvalue index hindex ref href arr harr i hi arr' harr' r hr
  rw [pure_eq_ok_iff] at hr
  subst hr
  obtain ⟨hr, hi⟩ := cAdd_one_eq_ok hi
  obtain ⟨h0, hl, rfl⟩ := writeSlot_eq_ok harr'
  rw [hi] at h0 hl
  simp only [record_next, Next.glob, observe, ← peek_eq_top hvalue, ← peek_eq_top hindex, ← peek_eq_top href, hi]
  exact .iastore ref index value arr harr hr h0 hl

theorem iaload_effect :
    Wp ((iaload fr g).map (Next.record .iaload fr)) (fun r => Effect cls callee g r.glob) (fun _ => True) := by
  simp only [iaload, wp_map, wp_bind]
  simp only [wp_iff_ok]
  intro index hindex ref href arr harr i hi v hv fr' hfr' r hr
  rw [pure_eq_ok_iff] at hr
  subst hr
  obtain ⟨hr, hi⟩ := cAdd_one_eq_ok hi
  obtain ⟨h0, hl, rfl⟩ := readSlot_eq_ok hv
  rw [hi] at h0 hl
  simp only [record_next, Next.glob, observe, advance_top, stackHelp_top hfr', ← peek_eq_top hindex,
    ← peek_eq_top href, hi]
  exact .iaload ref index arr harr hr h0 hl

theorem invokestatic_effect : Wp (invokestatic cls callee m fr g) (fun r => Effect cls callee g r.glob)
    (fun _ => True) := by
  simp only [invokestatic, wp_bind]
  simp only [wp_iff_ok]
  intro b1 _ b2 _
  split
  · simp
  · rename_i meth hf
    rw [← wp_iff_ok]
    simp only [wp_bind]
    simp only [wp_iff_ok]
    rintro ⟨lq, fr'⟩ _
    have hcall := @Effect.call cls callee g meth lq (findMethodFromIndex_mem hf)
    revert hcall
    rcases callee meth lq g with ⟨(_ | v) | f | _, g'⟩ <;> intro hcall
    · simpa [Next.glob] using hcall
    · dsimp only; split <;> simpa [Next.glob] using hcall
    · simpa [Next.glob] using hcall
    · simpa [Next.glob] using hcall

/-- A pass of `op`, with the access the loop records for it. -/
theorem exec_effect {op : Opcode} :
    Wp ((exec cls callee m fr g op).map (Next.record op fr)) (fun r => Effect cls callee g r.glob) (fun _ => True) := by
  cases op
  case newarray => exact newarray_effect
  case arraylength => exact arraylength_effect
  case iastore => exact iastore_effect
  case iaload => exact iaload_effect
  all_goals refine wp_record_of_not_array ?_ fun _ => by rfl
  case invokestatic => exact invokestatic_effect
  case invokevirtual =>
    simp only [exec.eq_def, wp_bind, wp_pure]
    exact (wp_iff_ok _).2 fun v _ => .print v
  case return_ | ireturn | areturn => simp [exec.eq_def, Next.glob, Effect.same]
  all_goals exact (exec_plain (by rfl) (by rfl)).imp (fun r ⟨fr', h⟩ => h ▸ .same) fun _ h => h

theorem step_effect : Wp (step cls callee m fr g) (fun r => Effect cls callee g r.glob) (fun _ => True) := by
  simp only [step, wp_bind]
  simp only [wp_iff_ok]
  intro b _
  split
  · exact (wp_iff_ok _).1 exec_effect
  · simp [Next.glob, Effect.same]

end Effects
/-- The count `newarray` allocated handle `h` with, if it did. -/
def allocCount (log : List Event) (h : Nat) : Option (BitVec 32) :=
  log.findSome? fun
    | .newarray h' c => if h' = h then some c else none
    | _ => none

/-- The value at `(h, i)` after event `e`, `v` before it. -/
def storeStep (h : Nat) (i : BitVec 32) (v : BitVec 32) : Event → BitVec 32
  | .iastore h' i' v' => if h' = h ∧ i' = i then v' else v
  | _ => v

/-- The value of the last `iastore` to `(h, i)`, or 0 if there was none. -/
def lastStore (log : List Event) (h : Nat) (i : BitVec 32) : BitVec 32 :=
  log.foldl (storeStep h i) 0

/-- Every event satisfies `P` against the events before it. -/
def Everywhere (P : List Event → Event → Prop) (log : List Event) : Prop :=
  ∀ k (hk : k < log.length), P (log.take k) (log.get ⟨k, hk⟩)

@[simp] theorem allocCount_nil (h : Nat) : allocCount [] h = none := rfl

theorem allocCount_append (log : List Event) (e : Event) (h : Nat) :
    allocCount (log ++ [e]) h = (allocCount log h).or (match e with
      | .newarray h' c => if h' = h then some c else none
      | _ => none) := by
  simp only [allocCount, List.findSome?_append, List.findSome?_cons, List.findSome?_nil]
  cases List.findSome? _ log <;> split <;> simp_all

theorem lastStore_append (log : List Event) (e : Event) (h : Nat) (i : BitVec 32) :
    lastStore (log ++ [e]) h i = storeStep h i (lastStore log h i) e := by
  simp only [lastStore, List.foldl_append, List.foldl_cons, List.foldl_nil]


theorem foldl_storeStep_of_not_stored {h : Nat} {i : BitVec 32} :
    ∀ {log : List Event} (acc : BitVec 32), (∀ v, Event.iastore h i v ∉ log) →
      log.foldl (storeStep h i) acc = acc
  | [], _, _ => rfl
  | e :: log, acc, hs => by
    have he : storeStep h i acc e = acc := by
      cases e <;> try rfl
      case iastore h' i' v' =>
        have : ¬ (h' = h ∧ i' = i) := fun ⟨e1, e2⟩ => hs v' (by simp [e1, e2])
        simp [storeStep, this]
    rw [List.foldl_cons, he]
    exact foldl_storeStep_of_not_stored acc fun v hm => hs v (List.mem_cons_of_mem _ hm)

theorem lastStore_of_not_stored {log : List Event} {h : Nat} (hs : ∀ i v, Event.iastore h i v ∉ log)
    (i : BitVec 32) : lastStore log h i = 0 :=
  foldl_storeStep_of_not_stored 0 (hs i)

/-- Slot 0 and slots `1 .. count` of handle `h`'s array, as the log says they are. -/
def layout (log : List Event) (h : Nat) (c : BitVec 32) : List (BitVec 32) :=
  c :: (List.range c.toNat).map fun j => lastStore log h (BitVec.ofNat 32 j)

/-- The heap is what the log wrote: each handle's array is the count it was first allocated
    with and the last value stored at each index, and only allocated arrays were stored to. -/
structure HeapInv (heap : List (List (BitVec 32))) (log : List Event) : Prop where
  count : ∀ h < 2 ^ 32, allocCount log h = (heap[h]?).bind List.head?
  elems : ∀ h arr, heap[h]? = some arr → ∃ c, arr = layout log h c
  stores : ∀ h i v, Event.iastore h i v ∈ log → h < heap.length

section Effects

variable {heap : List (List (BitVec 32))} {log : List Event}

theorem layout_append_newarray (h h' : Nat) (c c' : BitVec 32) :
    layout (log ++ [.newarray h' c']) h c = layout log h c := by
  simp only [layout, lastStore_append, storeStep]

/-- `newarray` appends an array whose handle is its position, modulo `2 ^ 32`. -/
theorem HeapInv.newarray (hinv : HeapInv heap log) (c : BitVec 32) :
    HeapInv (heap ++ [c :: List.replicate c.toNat 0]) (log ++ [.newarray (BitVec.ofNat 32 heap.length).toNat c]) where
  count h hh := by
    rw [allocCount_append, hinv.count h hh, BitVec.toNat_ofNat]
    rcases Nat.lt_or_ge heap.length (2 ^ 32) with hl | hl
    · rw [Nat.mod_eq_of_lt hl]
      rcases Nat.lt_trichotomy h heap.length with hh' | rfl | hh'
      · simp [List.getElem?_append_left hh', Nat.ne_of_gt hh']
      · simp [List.getElem?_eq_none (le_refl heap.length)]
      · rw [List.getElem?_eq_none (l := heap) (by omega), List.getElem?_eq_none (l := heap ++ _) (by simp; omega)]
        simp [Nat.ne_of_lt hh']
    · -- past `2 ^ 32` arrays the handle names an older array, whose count stays the first
      have hlt : h < heap.length := by omega
      obtain ⟨c', hc'⟩ := hinv.elems h _ (List.getElem?_eq_getElem hlt)
      by_cases hkh : heap.length % 2 ^ 32 = h <;>
        simp [List.getElem?_append_left hlt, List.getElem?_eq_getElem hlt, hc', layout, hkh]
  elems h arr harr := by
    rcases Nat.lt_or_ge h heap.length with hh | hh
    · rw [List.getElem?_append_left hh] at harr
      obtain ⟨c', rfl⟩ := hinv.elems h arr harr
      exact ⟨c', (layout_append_newarray h _ c' c).symm⟩
    · have : h = heap.length := by
        have := (List.getElem?_eq_some_iff.1 harr).1; simp at this; omega
      subst this
      simp only [List.getElem?_append_right (le_refl _), Nat.sub_self, List.getElem?_cons_zero,
        Option.some.injEq] at harr
      subst harr
      have hns : ∀ i v, Event.iastore heap.length i v ∉ log ++ [.newarray (BitVec.ofNat 32 heap.length).toNat c] := by
        intro i v hm
        rcases List.mem_append.1 hm with hm | hm
        · exact absurd (hinv.stores _ i v hm) (lt_irrefl _)
        · simp at hm
      exact ⟨c, by simp only [layout, lastStore_of_not_stored hns, List.map_const', List.length_range]⟩
  stores h i v hm := by
    rcases List.mem_append.1 hm with hm | hm
    · have := hinv.stores h i v hm; simp; omega
    · simp at hm

theorem ofNat_eq_iff {k : Nat} {i : BitVec 32} (hk : k < 2 ^ 32) : BitVec.ofNat 32 k = i ↔ k = i.toNat := by
  constructor
  · rintro rfl; rw [BitVec.toNat_ofNat, Nat.mod_eq_of_lt hk]
  · rintro rfl; exact BitVec.eq_of_toNat_eq (by rw [BitVec.toNat_ofNat, Nat.mod_eq_of_lt i.isLt])

theorem layout_append_iastore (h : Nat) (c i v : BitVec 32) :
    layout (log ++ [.iastore h i v]) h c = (layout log h c).set (i.toNat + 1) v := by
  simp only [layout, List.set_cons_succ, List.cons.injEq, true_and]
  refine List.ext_getElem (by simp) fun k hk _ => ?_
  have hk' : k < c.toNat := by simpa using hk
  have hlt : k < 2 ^ 32 := Nat.lt_trans hk' c.isLt
  simp only [List.getElem_map, List.getElem_range, lastStore_append, storeStep, true_and,
    List.getElem_set, eq_comm (a := i), ofNat_eq_iff hlt, eq_comm (a := i.toNat)]

theorem layout_append_iastore_ne {h h' : Nat} (hne : h' ≠ h) (c i v : BitVec 32) :
    layout (log ++ [.iastore h' i v]) h c = layout log h c := by
  simp [layout, lastStore_append, storeStep, hne]

theorem heapGet_eq_ok {ref : BitVec 32} {arr : List (BitVec 32)} (h : heapGet heap ref = .ok arr) :
    heap[ref.toNat]? = some arr := by
  unfold heapGet at h
  split_ifs at h
  split at h
  · cases h; assumption
  · cases h

theorem HeapInv.iastore (hinv : HeapInv heap log) {ref index value : BitVec 32} {arr : List (BitVec 32)}
    (harr : heapGet heap ref = .ok arr) (hi : 0 ≤ index.toInt) :
    HeapInv (heap.set ref.toNat (arr.set (index.toInt + 1).toNat value))
      (log ++ [.iastore ref.toNat index value]) := by
  have hslot : (index.toInt + 1).toNat = index.toNat + 1 := by
    have := toNat_eq_toInt hi; omega
  have harr' := heapGet_eq_ok harr
  have hlt := (List.getElem?_eq_some_iff.1 harr').1
  obtain ⟨c, rfl⟩ := hinv.elems _ _ harr'
  rw [hslot]
  constructor
  · intro h hh
    rw [allocCount_append, hinv.count h hh]
    by_cases hh : ref.toNat = h
    · subst hh; simp [harr', layout, List.getElem?_set_self hlt]
    · simp [List.getElem?_set_ne hh]
  · intro h arr' harr''
    by_cases hh : ref.toNat = h
    · subst hh
      rw [List.getElem?_set_self hlt, Option.some.injEq] at harr''
      exact ⟨c, by rw [← harr'', layout_append_iastore]⟩
    · rw [List.getElem?_set_ne hh] at harr''
      obtain ⟨c', rfl⟩ := hinv.elems h arr' harr''
      exact ⟨c', (layout_append_iastore_ne hh c' index value).symm⟩
  · intro h i v hm
    rw [List.length_set]
    rcases List.mem_append.1 hm with hm | hm
    · exact hinv.stores h i v hm
    · simp only [List.mem_singleton, Event.iastore.injEq] at hm
      rw [hm.1]
      exact hlt

end Effects

/-! ## The law -/

/-- `e` stays inside the array it names, as allocated before it. -/
def AccessInBounds (pre : List Event) : Event → Prop
  | .iastore h i _ | .iaload h i _ => ∃ c ∈ allocCount pre h, 0 ≤ i.toInt ∧ i.toInt < c.toInt
  | _ => True

instance (pre : List Event) : DecidablePred (AccessInBounds pre)
  | .iastore h i _ | .iaload h i _ =>
    inferInstanceAs (Decidable (∃ c ∈ allocCount pre h, 0 ≤ i.toInt ∧ i.toInt < c.toInt))
  | .print _ | .newarray _ _ | .arraylength _ _ => isTrue trivial

/-- `e` reads what a Java array gives after `pre`: the count, or the last value stored. -/
def Lawful (pre : List Event) : Event → Prop
  | .arraylength h len => allocCount pre h = some len
  | .iaload h i v => v = lastStore pre h i
  | _ => True

instance (pre : List Event) : DecidablePred (Lawful pre)
  | .arraylength h len => inferInstanceAs (Decidable (allocCount pre h = some len))
  | .iaload h i v => inferInstanceAs (Decidable (v = lastStore pre h i))
  | .print _ | .newarray _ _ | .iastore _ _ _ => isTrue trivial

instance {P : List Event → Event → Prop} [∀ pre, DecidablePred (P pre)] (log : List Event) :
    Decidable (Everywhere P log) :=
  inferInstanceAs (Decidable (∀ k (hk : k < log.length), P (log.take k) (log.get ⟨k, hk⟩)))

/-- Every element access of the log stays in bounds. -/
def InBounds (log : List Event) : Prop := Everywhere AccessInBounds log

/-- Every read of the log obeys Java's array semantics. -/
def ArrayLaw (log : List Event) : Prop := Everywhere Lawful log

instance (log : List Event) : Decidable (InBounds log) := inferInstanceAs (Decidable (Everywhere _ log))

instance (log : List Event) : Decidable (ArrayLaw log) := inferInstanceAs (Decidable (Everywhere _ log))

/-- What every run keeps: while its accesses stay in bounds, the heap is what the log wrote
    and every read obeyed the law. -/
def Good (g : Glob) : Prop := InBounds g.log → HeapInv g.heap g.log ∧ ArrayLaw g.log

section Good

variable {cls : ClassFile} {callee : Method → List (BitVec 32) → Glob → Ending × Glob}

end Good

/-- `newarray`'s guard `count + 1 > 0`: undefined at `INT32_MAX`, an assertion failure for a
    negative count, otherwise an array of `count` zeros after the count. -/
theorem exec_newarray {cls : ClassFile} {callee : Method → List (BitVec 32) → Glob → Ending × Glob}
    {m : Method} {fr : Frame} {g : Glob} (h1 : 1 ≤ fr.stackSize) (h2 : fr.stackSize ≤ fr.operandStack.length) :
    exec cls callee m fr g .newarray =
      if InRange ((fr.top 1).toInt + 1) then
        if (fr.top 1).toInt < 0 then .error .assertion
        else .ok (.next ((fr.setTop 1 (BitVec.ofNat 32 g.heap.length)).advance 2)
          { g with heap := g.heap ++ [fr.top 1 :: List.replicate (fr.top 1).toNat 0] })
      else .error (.undefined .signedOverflow) := by
  have h1' : (1 : BitVec 32).toInt = 1 := by decide
  simp only [exec.eq_def, newarray, peek_ok (k := 1) (by omega) h1 h2, ok_bind, cAdd, h1']
  split_ifs with ho hn
  · rw [intResult_of_inRange ho, ok_bind, toInt_wrap ho, assertThat_of_not (by omega)]
    rfl
  · rw [intResult_of_inRange ho, ok_bind, toInt_wrap ho, assertThat_of (by omega), ok_bind, heapAdd,
      poke_ok h1 (by push_cast; omega)]
    rfl
  · rw [intResult_of_not_inRange ho]; rfl

/-- `iconst_m1; iconst_1; iushr; newarray int; return`: a count of `INT32_MAX`. -/
def maxCountArray : Method := ⟨[0x02, 0x04, 0x7c, 0xbc, 0x0a, 0xb1], 2, 0, 0, false⟩

theorem maxCountArray_overflows :
    execute ⟨[], []⟩ 10 maxCountArray [] ⟨[], []⟩ = (.fault (.undefined .signedOverflow), ⟨[], []⟩) := by
  rfl

/-! ## Handles stay valid -/

/-- What a run may do to what the invocations share: arrays are only added, never freed, moved
    or resized, and the log is only appended to. -/
structure Glob.Extends (g g' : Glob) : Prop where
  arrays : ∀ (h : Nat) (arr : List (BitVec 32)), g.heap[h]? = some arr →
    ∃ arr', g'.heap[h]? = some arr' ∧ arr'.length = arr.length
  log : g.log <+: g'.log

theorem Glob.Extends.refl (g : Glob) : g.Extends g := ⟨fun _ arr h => ⟨arr, h, rfl⟩, List.prefix_refl _⟩

theorem Glob.Extends.trans {g₁ g₂ g₃ : Glob} (h₁ : g₁.Extends g₂) (h₂ : g₂.Extends g₃) : g₁.Extends g₃ where
  arrays h arr ha := by
    obtain ⟨a₂, ha₂, hl₂⟩ := h₁.arrays h arr ha
    obtain ⟨a₃, ha₃, hl₃⟩ := h₂.arrays h a₂ ha₂
    exact ⟨a₃, ha₃, hl₃.trans hl₂⟩
  log := h₁.log.trans h₂.log

/-- An event appended to the log, the heap left as it is. -/
theorem Glob.Extends.append_log (g : Glob) (e : Event) : g.Extends { g with log := g.log ++ [e] } :=
  ⟨fun _ arr h => ⟨arr, h, rfl⟩, List.prefix_append _ _⟩

section Extends

variable {cls : ClassFile} {callee : Method → List (BitVec 32) → Glob → Ending × Glob}

/-- A pass extends the heap and the log, given that the callee does: `newarray` appends an
    array, `iastore` writes one slot inside its array. -/
theorem Effect.extends {g g' : Glob}
    (hcallee : ∀ meth ∈ cls.methods, ∀ lq (g : Glob), g.Extends (callee meth lq g).2)
    (he : Effect cls callee g g') : g.Extends g' := by
  cases he with
  | same => exact .refl g
  | print v => exact .append_log g _
  | newarray count _ =>
    refine ⟨fun h arr ha => ⟨arr, ?_, rfl⟩, List.prefix_append _ _⟩
    rw [List.getElem?_append_left (List.getElem?_eq_some_iff.1 ha).1, ha]
  | arraylength ref arr _ _ => exact .append_log g _
  | iastore ref index value arr harr _ _ _ =>
    refine ⟨fun h a ha => ?_, List.prefix_append _ _⟩
    by_cases hh : ref.toNat = h
    · subst hh
      rw [heapGet_eq_ok harr] at ha
      cases ha
      exact ⟨_, List.getElem?_set_self (List.getElem?_eq_some_iff.1 (heapGet_eq_ok harr)).1, List.length_set _ _ _⟩
    · exact ⟨a, by rw [List.getElem?_set_ne hh, ha], rfl⟩
  | iaload ref index arr _ _ _ _ => exact .append_log g _
  | call meth lq hm => exact hcallee meth hm lq g

/-- Every run extends the heap and log it started from, at every depth of nested calls. -/
theorem run_extends (n : Nat) : ∀ (m : Method) (fr : Frame) (g : Glob), g.Extends (run cls n m fr g).2 := by
  induction n with
  | zero => intro m fr g; exact .refl g
  | succ n ih =>
    intro m fr g
    unfold run
    split_ifs
    · have heff : ∀ r, step cls (fun m' l g' => run cls n m' (Frame.init m' l) g') m fr g = .ok r →
          Effect cls (fun m' l g' => run cls n m' (Frame.init m' l) g') g r.glob :=
        (wp_iff_ok _).1 step_effect
      revert heff
      cases step cls (fun m' l g' => run cls n m' (Frame.init m' l) g') m fr g with
      | error f => intro _; exact .refl g
      | ok r =>
        intro heff
        have hr := (heff r rfl).extends fun meth _ lq g => ih meth _ g
        cases r with
        | next fr' g' => exact hr.trans (ih m fr' g')
        | done e g' => exact hr
    · exact .refl g

end Extends

/-- `execute` never frees, moves or resizes an array and only appends to the log: every handle
    valid when it is called stays valid, its array of the same length, across all nested
    calls and however the run ends. -/
theorem execute_keeps_arrays (cls : ClassFile) (n : Nat) (m : Method) (locals : List (BitVec 32)) (g : Glob) :
    g.Extends (execute cls n m locals g).2 :=
  run_extends n m _ g

end Cs24.Jvm
