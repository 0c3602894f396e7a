import Mathlib.Data.List.Pairwise
import MacroAsm.Proofs.Placeholders

/-!
# Writing placeholders

The offset of a label or a table is written into its placeholder by a call that may be refused. Calls may come in any
order, more than once for a placeholder, with values that do not fit and for places that are none. Nothing but the calls
that succeed leaves a trace, and no placeholder is written twice.

* `Expansion.patch`, `Expansion.patchAll`: one call, and a row of calls with those that succeed;
* `Expansion.Writable e`: the placeholders of `e` are pushes of two bytes that do not overlap;
* `Expansion.patch_cases`: what one call does; `Expansion.WrittenBy e log e'`: what the calls `log` have made of `e`;
* `patchAll_atomic`: rows of calls.
-/

namespace MacroAsm

/-- A value for the placeholder at an offset. -/
structure Write where
  offset : Nat
  value : Nat
  deriving DecidableEq

namespace Expansion

/-- Writes a value into a placeholder of an expansion; what the call says, and the expansion that it leaves. -/
def patch (e : Expansion) (w : Write) : Except Cause Unit × Expansion :=
  (((Image.patch w.offset w.value).run e.image).1, e.withImage ((Image.patch w.offset w.value).run e.image).2)

/-- The calls of a row that succeed, and the expansion after all of them. -/
def patchAll (e : Expansion) : List Write → List Write × Expansion
  | [] => ([], e)
  | w :: ws =>
    let rest := (e.patch w).2.patchAll ws
    (if (e.patch w).1.isOk then w :: rest.1 else rest.1, rest.2)

/-- Placeholders that can be written: pushes of two bytes within the code, each behind the one before it. -/
structure Writable (e : Expansion) : Prop where
  bound : ∀ p ∈ e.placeholders, p + 2 < e.bytes.length
  push : ∀ p ∈ e.placeholders, e.bytes[p]? = some Opcode.push2
  apart : e.placeholders.Pairwise fun p q => p + 3 ≤ q

/-- What the calls `log`, all of which have succeeded, have made of `e`. -/
structure WrittenBy (e : Expansion) (log : List Write) (e' : Expansion) : Prop where
  /-- no placeholder was written twice -/
  once : (log.map Write.offset).Nodup
  known : ∀ w ∈ log, w.offset ∈ e.placeholders ∧ w.value ≤ maxOffset
  /-- the operand of a placeholder that was written, the high byte first -/
  operand : ∀ w ∈ log, ∃ high low : UInt8, e'.bytes[w.offset + 1]? = some high ∧ e'.bytes[w.offset + 2]? = some low ∧
    256 * high.toNat + low.toNat = w.value
  /-- every other byte is as it was -/
  other : ∀ k, (∀ w ∈ log, k ≠ w.offset + 1 ∧ k ≠ w.offset + 2) → e'.bytes[k]? = e.bytes[k]?
  placeholders : e'.placeholders = e.placeholders.filter fun p => p ∉ log.map Write.offset
  rest : e' = { e with bytes := e'.bytes, placeholders := e'.placeholders }

/-! ## one call -/

/-- A placeholder that is open, and a value that fits. -/
def Takes (e : Expansion) (w : Write) : Prop := w.offset ∈ e.placeholders ∧ w.value ≤ maxOffset

/-- The expansion with a value in a placeholder. -/
def write (e : Expansion) (w : Write) : Expansion :=
  { e with
    bytes := (e.bytes.set (w.offset + 1) (UInt8.ofNat (w.value / 256))).set (w.offset + 2) (UInt8.ofNat (w.value % 256))
    placeholders := e.placeholders.erase w.offset }

@[simp] lemma withImage_image (e : Expansion) : e.withImage e.image = e := rfl

/-- **What a call does.** It writes a value that fits into an open placeholder; otherwise it is refused and leaves the
expansion as it was. -/
theorem patch_cases {e : Expansion} (h : e.Writable) (w : Write) :
    (e.Takes w ∧ e.patch w = (.ok (), e.write w)) ∨ (¬ e.Takes w ∧ ∃ cause, e.patch w = (.error cause, e)) := by
  unfold patch
  rw [Image.patch_run]
  by_cases hmem : w.offset ∈ e.placeholders
  · have hguard : (!e.image.placeholders.contains w.offset ||
        e.image.bytes[w.offset]? != some Opcode.push2) = false := by
      simp [image, hmem, h.push w.offset hmem]
    rw [hguard, if_neg Bool.false_ne_true]
    by_cases hfit : w.value ≤ maxOffset
    · rw [if_neg (Nat.not_lt.2 hfit)]
      refine Or.inl ⟨⟨hmem, hfit⟩, ?_⟩
      simp [withImage, image, Image.written, write]
    · rw [if_pos (Nat.lt_of_not_le hfit)]
      exact Or.inr ⟨fun ht => hfit ht.2, .offsetTooLarge w.value, rfl⟩
  · have hguard : (!e.image.placeholders.contains w.offset ||
        e.image.bytes[w.offset]? != some Opcode.push2) = true := by
      simp [image, hmem]
    rw [hguard, if_pos rfl]
    exact Or.inr ⟨fun ht => hmem ht.1, .notAPlaceholder w.offset, rfl⟩

section Write

variable {e : Expansion} {v w : Write}

lemma length_write : (e.write w).bytes.length = e.bytes.length := by
  simp [write]

/-- A write changes no byte but the two of its operand. -/
lemma getElem?_write {k : Nat} (h₁ : k ≠ w.offset + 1) (h₂ : k ≠ w.offset + 2) :
    (e.write w).bytes[k]? = e.bytes[k]? := by
  rw [write, List.getElem?_set_ne h₂.symm, List.getElem?_set_ne h₁.symm]

/-- The operand that was written. -/
lemma getElem?_write_operand (hbound : w.offset + 2 < e.bytes.length) :
    (e.write w).bytes[w.offset + 1]? = some (UInt8.ofNat (w.value / 256)) ∧
      (e.write w).bytes[w.offset + 2]? = some (UInt8.ofNat (w.value % 256)) := by
  constructor
  · rw [write, List.getElem?_set_ne (by omega), List.getElem?_set_self (by omega)]
  · rw [write, List.getElem?_set_self (by rw [List.length_set]; exact hbound)]

/-- Two placeholders do not overlap. -/
lemma Writable.apart_of_ne (h : e.Writable) {p q : Nat} (hp : p ∈ e.placeholders) (hq : q ∈ e.placeholders)
    (hne : p ≠ q) : p + 3 ≤ q ∨ q + 3 ≤ p := by
  have : Std.Symm fun p q : Nat => p + 3 ≤ q ∨ q + 3 ≤ p := ⟨fun _ _ => Or.symm⟩
  have hpairs : e.placeholders.Pairwise fun p q => p + 3 ≤ q ∨ q + 3 ≤ p := h.apart.imp Or.inl
  exact hpairs.forall hp hq hne

lemma Writable.nodup (h : e.Writable) : e.placeholders.Nodup :=
  h.apart.imp fun hlt => by omega

lemma Writable.mem_write_iff (h : e.Writable) {p : Nat} :
    p ∈ (e.write w).placeholders ↔ p ≠ w.offset ∧ p ∈ e.placeholders := h.nodup.mem_erase_iff

/-- **A write leaves the other placeholders as they are.** -/
lemma Writable.write (h : e.Writable) (ht : e.Takes w) : (e.write w).Writable := by
  refine ⟨fun p hp => ?_, fun p hp => ?_, h.apart.sublist List.erase_sublist⟩
  · rw [length_write]
    exact h.bound p (h.mem_write_iff.1 hp).2
  · obtain ⟨hne, hmem⟩ := h.mem_write_iff.1 hp
    have hapart := h.apart_of_ne hmem ht.1 hne
    rw [getElem?_write (by omega) (by omega)]
    exact h.push p hmem

/-- Another placeholder is open after a write if it was before. -/
lemma takes_write_iff (hne : v.offset ≠ w.offset) : (e.write v).Takes w ↔ e.Takes w :=
  and_congr_left fun _ => List.mem_erase_of_ne hne.symm

/-- Writes into two placeholders commute. -/
lemma write_comm (h : e.Writable) (hv : e.Takes v) (hw : e.Takes w) (hne : v.offset ≠ w.offset) :
    (e.write v).write w = (e.write w).write v := by
  have hapart := h.apart_of_ne hv.1 hw.1 hne
  have hbytes : ∀ a b c d : UInt8,
      (((e.bytes.set (v.offset + 1) a).set (v.offset + 2) b).set (w.offset + 1) c).set (w.offset + 2) d =
        (((e.bytes.set (w.offset + 1) c).set (w.offset + 2) d).set (v.offset + 1) a).set (v.offset + 2) b := by
    intro a b c d
    rw [List.set_comm b c (by omega), List.set_comm b d (by omega), List.set_comm a c (by omega),
      List.set_comm a d (by omega)]
  simp only [write, hbytes, List.erase_comm v.offset w.offset]

end Write

/-! ## rows of calls -/

section Rows

variable {e : Expansion} {v w : Write}

lemma patchAll_cons_of_takes (h : e.Writable) (ht : e.Takes w) (ws : List Write) :
    e.patchAll (w :: ws) = (w :: ((e.write w).patchAll ws).1, ((e.write w).patchAll ws).2) := by
  rcases patch_cases h w with ⟨-, hok⟩ | ⟨hnot, -⟩
  · rw [patchAll, hok]
    rfl
  · exact absurd ht hnot

lemma patchAll_cons_of_not_takes (h : e.Writable) (ht : ¬ e.Takes w) (ws : List Write) :
    e.patchAll (w :: ws) = e.patchAll ws := by
  rcases patch_cases h w with ⟨hyes, -⟩ | ⟨-, cause, herr⟩
  · exact absurd hyes ht
  · rw [patchAll, herr]
    rfl

lemma patchAll_append (e : Expansion) (ws ws' : List Write) :
    e.patchAll (ws ++ ws') =
      ((e.patchAll ws).1 ++ ((e.patchAll ws).2.patchAll ws').1, ((e.patchAll ws).2.patchAll ws').2) := by
  induction ws generalizing e with
  | nil => rfl
  | cons w ws ih =>
    rw [List.cons_append, patchAll, patchAll]
    simp only [ih]
    split <;> rfl

lemma Writable.patchAll (h : e.Writable) (ws : List Write) : (e.patchAll ws).2.Writable := by
  induction ws generalizing e with
  | nil => exact h
  | cons w ws ih =>
    by_cases ht : e.Takes w
    · rw [patchAll_cons_of_takes h ht]
      exact ih (h.write ht)
    · rw [patchAll_cons_of_not_takes h ht]
      exact ih h

lemma WrittenBy.nil (e : Expansion) : e.WrittenBy [] e := by
  refine ⟨List.nodup_nil, ?_, ?_, fun _ _ => rfl, ?_, rfl⟩
  · exact fun w hw => absurd hw List.not_mem_nil
  · exact fun w hw => absurd hw List.not_mem_nil
  · simp

/-- The two bytes of a value that fits make up the value. -/
lemma toNat_operand {n : Nat} (h : n ≤ maxOffset) :
    256 * (UInt8.ofNat (n / 256)).toNat + (UInt8.ofNat (n % 256)).toNat = n := by
  rw [UInt8.toNat_ofNat', UInt8.toNat_ofNat']
  unfold maxOffset at h
  omega

/-- One call more, before the others. -/
lemma WrittenBy.cons {log : List Write} {e' : Expansion} (h : e.Writable) (ht : e.Takes w)
    (hlog : (e.write w).WrittenBy log e') : e.WrittenBy (w :: log) e' := by
  have hknown : ∀ v ∈ log, v.offset ≠ w.offset ∧ v.offset ∈ e.placeholders := fun v hv =>
    h.mem_write_iff.1 (hlog.known v hv).1
  have hapart : ∀ v ∈ log, v.offset + 3 ≤ w.offset ∨ w.offset + 3 ≤ v.offset := fun v hv =>
    h.apart_of_ne (hknown v hv).2 ht.1 (hknown v hv).1
  refine ⟨?_, ?_, ?_, ?_, ?_, ?_⟩
  · rw [List.map_cons, List.nodup_cons]
    refine ⟨fun hmem => ?_, hlog.once⟩
    obtain ⟨v, hv, heq⟩ := List.mem_map.1 hmem
    exact (hknown v hv).1 heq
  · exact List.forall_mem_cons.2 ⟨ht, fun v hv => ⟨(hknown v hv).2, (hlog.known v hv).2⟩⟩
  · refine List.forall_mem_cons.2 ⟨?_, hlog.operand⟩
    -- the later calls leave this operand alone
    obtain ⟨hhigh, hlow⟩ := getElem?_write_operand (h.bound w.offset ht.1)
    refine ⟨_, _, (hlog.other _ fun v hv => ?_).trans hhigh, (hlog.other _ fun v hv => ?_).trans hlow,
      toNat_operand ht.2⟩
    · have := hapart v hv
      omega
    · have := hapart v hv
      omega
  · intro k hk
    obtain ⟨hw, hlater⟩ := List.forall_mem_cons.1 hk
    rw [hlog.other k hlater, getElem?_write hw.1 hw.2]
  · have herase : (e.write w).placeholders = e.placeholders.filter (· != w.offset) := h.nodup.erase_eq_filter w.offset
    rw [hlog.placeholders, herase, List.filter_filter]
    refine List.filter_congr fun p _ => ?_
    rw [Bool.eq_iff_iff, Bool.and_eq_true, decide_eq_true_iff, decide_eq_true_iff, bne_iff_ne, List.map_cons,
      List.mem_cons, not_or, and_comm]
  · exact hlog.rest

/-- **Rows of calls** leave what the successful ones have written, and nothing else. -/
theorem writtenBy_patchAll (h : e.Writable) (ws : List Write) : e.WrittenBy (e.patchAll ws).1 (e.patchAll ws).2 := by
  induction ws generalizing e with
  | nil => exact .nil e
  | cons w ws ih =>
    by_cases ht : e.Takes w
    · rw [patchAll_cons_of_takes h ht]
      exact .cons h ht (ih (h.write ht))
    · rw [patchAll_cons_of_not_takes h ht]
      exact ih h

/-- Two neighbours in a row of calls for different placeholders change places. -/
lemma patchAll_swap (h : e.Writable) (hne : v.offset ≠ w.offset) (ws : List Write) :
    (e.patchAll (v :: w :: ws)).2 = (e.patchAll (w :: v :: ws)).2 ∧
      (e.patchAll (v :: w :: ws)).1.Perm (e.patchAll (w :: v :: ws)).1 := by
  have hvw := takes_write_iff (e := e) hne
  have hwv := takes_write_iff (e := e) hne.symm
  by_cases hv : e.Takes v
  · by_cases hw : e.Takes w
    · rw [patchAll_cons_of_takes h hv, patchAll_cons_of_takes (h.write hv) (hvw.2 hw),
        patchAll_cons_of_takes h hw, patchAll_cons_of_takes (h.write hw) (hwv.2 hv), write_comm h hv hw hne]
      exact ⟨rfl, List.Perm.swap w v _⟩
    · rw [patchAll_cons_of_takes h hv, patchAll_cons_of_not_takes (h.write hv) (mt hvw.1 hw),
        patchAll_cons_of_not_takes h hw, patchAll_cons_of_takes h hv]
      exact ⟨rfl, List.Perm.refl _⟩
  · by_cases hw : e.Takes w
    · rw [patchAll_cons_of_not_takes h hv, patchAll_cons_of_takes h hw, patchAll_cons_of_takes h hw,
        patchAll_cons_of_not_takes (h.write hw) (mt hwv.1 hv)]
      exact ⟨rfl, List.Perm.refl _⟩
    · rw [patchAll_cons_of_not_takes h hv, patchAll_cons_of_not_takes h hw, patchAll_cons_of_not_takes h hw,
        patchAll_cons_of_not_takes h hv]
      exact ⟨rfl, List.Perm.refl _⟩

end Rows

/-- The placeholders of an expansion whose books are in order can be written. -/
lemma Sound.writable {start : Address} {e : Expansion} (h : e.Sound start) : e.Writable := by
  refine ⟨fun p hp => (h.hole p hp).1, fun p hp => ?_, h.apart⟩
  have hfirst := congrArg (fun l : Bytes => l[0]?) (h.hole p hp).2
  simpa using hfirst

end Expansion

/-- **Writing placeholders.** After any row of calls, the bytes and placeholders are those that the successful calls
have left, no two of them for one placeholder. A further call succeeds exactly if its placeholder is still open and its
value fits, and one that fails changes nothing. Calls for different placeholders change places. -/
theorem patchAll_atomic {e : Expansion} (h : e.Writable) (ws : List Write) :
    e.WrittenBy (e.patchAll ws).1 (e.patchAll ws).2 ∧
    (∀ w, ((e.patchAll ws).2.patch w).1.isOk = true ↔
      w.offset ∈ e.placeholders ∧ (∀ v ∈ (e.patchAll ws).1, v.offset ≠ w.offset) ∧ w.value ≤ maxOffset) ∧
    (∀ w, ((e.patchAll ws).2.patch w).1.isOk = false →
      ((e.patchAll ws).2.patch w).2 = (e.patchAll ws).2 ∧ e.patchAll (ws ++ [w]) = e.patchAll ws) ∧
    ∀ v w ws', v.offset ≠ w.offset →
      (e.patchAll (ws ++ v :: w :: ws')).2 = (e.patchAll (ws ++ w :: v :: ws')).2 ∧
      (e.patchAll (ws ++ v :: w :: ws')).1.Perm (e.patchAll (ws ++ w :: v :: ws')).1 := by
  have hwritten := Expansion.writtenBy_patchAll h ws
  have hafter := h.patchAll ws
  refine ⟨hwritten, fun w => ?_, fun w hfail => ?_, fun v w ws' hne => ?_⟩
  · have hopen : w.offset ∈ (e.patchAll ws).2.placeholders ↔
        w.offset ∈ e.placeholders ∧ ∀ v ∈ (e.patchAll ws).1, v.offset ≠ w.offset := by
      rw [hwritten.placeholders, List.mem_filter, decide_eq_true_iff, List.mem_map]
      simp only [not_exists, not_and]
    rw [← and_assoc, ← hopen]
    rcases Expansion.patch_cases hafter w with ⟨htakes, hok⟩ | ⟨hnot, cause, herr⟩
    · rw [hok]
      exact iff_of_true rfl htakes
    · rw [herr]
      exact iff_of_false Bool.false_ne_true hnot
  · rcases Expansion.patch_cases hafter w with ⟨-, hok⟩ | ⟨hnot, cause, herr⟩
    · rw [hok] at hfail
      cases hfail
    · refine ⟨by rw [herr], ?_⟩
      rw [Expansion.patchAll_append, Expansion.patchAll_cons_of_not_takes hafter hnot, Expansion.patchAll,
        List.append_nil]
  · obtain ⟨hlast, hperm⟩ := Expansion.patchAll_swap hafter hne ws'
    rw [Expansion.patchAll_append, Expansion.patchAll_append]
    exact ⟨hlast, hperm.append_left _⟩

/-- A value that is too large, a placeholder twice, and a byte that is none. -/
def Sample.writes : List Write := [⟨16, 0x10000⟩, ⟨19, 0x1234⟩, ⟨19, 0x10⟩, ⟨17, 1⟩, ⟨16, 0xffff⟩]

/-- Of five calls on a program with two open references, two succeed. -/
theorem patchAll_atomic_part :
    ∃ e s', (Engine.expand {} 256 [] Sample.part).runOn Sample.store = (.ok e, s') ∧ e.placeholders = [16, 19] ∧
      (e.patchAll Sample.writes).1 = [⟨19, 0x1234⟩, ⟨16, 0xffff⟩] ∧ e.Writable ∧
      e.WrittenBy [⟨19, 0x1234⟩, ⟨16, 0xffff⟩] (e.patchAll Sample.writes).2 := by
  have hrun : ((Engine.expand {} 256 [] Sample.part).runOn Sample.store).1.toOption.map
      (fun e => (e.placeholders, (e.patchAll Sample.writes).1)) = some ([16, 19], [⟨19, 0x1234⟩, ⟨16, 0xffff⟩]) := by
    decide +kernel
  obtain ⟨e, s', h, heq⟩ := Engine.exists_of_runOn hrun
  obtain ⟨hplaceholders, hlog⟩ := Prod.mk.inj heq
  obtain ⟨c, hc, -, rfl⟩ := Engine.expand_ok_iff.1 h
  obtain ⟨body, rfl⟩ := Engine.exists_frame_of_unfold hc
  have hwritable := (body.sound_frame Sample.part.start).writable
  refine ⟨_, s', h, hplaceholders, hlog, hwritable, ?_⟩
  rw [← hlog]
  exact (patchAll_atomic hwritable Sample.writes).1

end MacroAsm
