import MagiC.Aes.Message
import MagiC.Lib.Runs
import Mathlib.Data.Nat.Find

/-!
# The Message Buffer Is a Bounded Queue

Messages are written and read in any order, by anybody and of any length.

`Bounded` is what holds between two calls: the bytes of the queue lie in
`ap_buf` and came out of messages. It is kept as long as nobody asks for more
bytes than there are, and as long as a message that is compared with the
pending ones finds an end of them and room for what it puts there. The code
checks neither. A reader gets what it asks for, the length in a message leads
wherever it says, and a message is taken to have sixteen bytes, which it may
not have.

Where the search stops is said without the search: `visit` follows the lengths
from the start of the buffer.

## Main definitions

* `Safe`: What is found can be overwritten, joined or removed.

## Theorems

* `buffer_bounded`: In every run of proper calls, each of them terminates and
  stays in its bounds.
-/

namespace MagiC

namespace Aes

namespace Msg

open Copy

theorem msgAt_of_lt {d : BitVec 16} (h : d.toNat < 2 ^ 15) : msgAt d = apBuf + d.toNat := by
  unfold msgAt apBuf
  rw [BitVec.toNat_add, show (0x8000 : BitVec 16).toNat = 2 ^ 15 by decide,
    Nat.mod_eq_of_lt (by omega)]
  omega

/-! ## Writing in the buffer -/

theorem putWord_other (m : Mem) {a i : Nat} (w : BitVec 16) (s : Bool) (h0 : i ≠ a)
    (h1 : i ≠ a + 1) : putWord m a w s i = m i := by
  unfold putWord
  rw [Function.update_of_ne h1, Function.update_of_ne h0]

theorem putWord_sent (m : Mem) (a i : Nat) (w : BitVec 16) :
    (putWord m a w true i).sent = true ↔ i = a ∨ i = a + 1 ∨ (m i).sent = true := by
  by_cases h1 : i = a + 1
  · subst h1
    simp only [putWord, Function.update_self, true_or, or_true]
  · by_cases h0 : i = a
    · subst h0
      simp only [putWord, Function.update_of_ne h1, Function.update_self, true_or]
    · rw [putWord_other m w true h0 h1]
      simp only [h0, h1, false_or]

theorem unionAxis_other (m : Mem) (a0 : Nat) {a1 i : Nat}
    (h : (i ≠ a1 ∧ i ≠ a1 + 1) ∧ i ≠ a1 + 4 ∧ i ≠ a1 + 5) : unionAxis m a0 a1 i = m i := by
  unfold unionAxis
  rw [putWord_other _ _ _ h.2.1 h.2.2, putWord_other _ _ _ h.1.1 h.1.2]

/-- The words that one axis of a join is made of came out of messages. -/
def SpansSent (m : Mem) (a0 a1 : Nat) : Prop :=
  (wordSent m a0 && wordSent m (a0 + 4) && wordSent m a1 && wordSent m (a1 + 4)) = true

instance (m : Mem) (a0 a1 : Nat) : Decidable (SpansSent m a0 a1) :=
  inferInstanceAs (Decidable (_ = true))

theorem unionAxis_sent {m : Mem} {a0 a1 : Nat} (hs : SpansSent m a0 a1) {i : Nat}
    (hi : (m i).sent = true) : (unionAxis m a0 a1 i).sent = true := by
  unfold unionAxis
  rw [show (wordSent m a0 && wordSent m (a0 + 4) && wordSent m a1 && wordSent m (a1 + 4)) = true
    from hs, putWord_sent, putWord_sent]
  exact .inr (.inr (.inr (.inr hi)))

theorem SpansSent.mono {m m' : Mem} {a0 a1 : Nat}
    (hm : ∀ i, (m i).sent = true → (m' i).sent = true) (hs : SpansSent m a0 a1) :
    SpansSent m' a0 a1 := by
  simp only [SpansSent, wordSent, Bool.and_eq_true] at hs ⊢
  exact ⟨⟨⟨⟨hm _ hs.1.1.1.1, hm _ hs.1.1.1.2⟩, hm _ hs.1.1.2.1, hm _ hs.1.1.2.2⟩,
    hm _ hs.1.2.1, hm _ hs.1.2.2⟩, hm _ hs.2.1, hm _ hs.2.2⟩

theorem grectsUnion_other (m : Mem) (a0 : Nat) {a1 i : Nat} (h : i < a1 ∨ a1 + 8 ≤ i) :
    grectsUnion m a0 a1 i = m i := by
  unfold grectsUnion
  rw [unionAxis_other _ _ (by omega), unionAxis_other _ _ (by omega)]

theorem grectsUnion_horz {m : Mem} {a0 a1 : Nat} (hx : SpansSent m a0 a1) {i : Nat}
    (hm : (m i).sent = true) (hi : (i ≠ a1 + 2 ∧ i ≠ a1 + 3) ∧ i ≠ a1 + 6 ∧ i ≠ a1 + 7) :
    (grectsUnion m a0 a1 i).sent = true := by
  unfold grectsUnion
  rw [unionAxis_other _ _ (by omega)]
  exact unionAxis_sent hx hm

theorem grectsUnion_both {m : Mem} {a0 a1 : Nat} (hx : SpansSent m a0 a1)
    (hy : SpansSent m (a0 + 2) (a1 + 2)) {i : Nat} (hm : (m i).sent = true) :
    (grectsUnion m a0 a1 i).sent = true :=
  unionAxis_sent (hy.mono (fun _ => unionAxis_sent hx)) (unionAxis_sent hx hm)

theorem grectsUnion_sent {m : Mem} {a0 a1 lim : Nat} (hx : a1 < lim → SpansSent m a0 a1)
    (hy : a1 + 2 < lim → SpansSent m (a0 + 2) (a1 + 2)) {i : Nat} (hi : i < lim)
    (hm : (m i).sent = true) : (grectsUnion m a0 a1 i).sent = true := by
  unfold grectsUnion
  have hfst : (unionAxis m a0 a1 i).sent = true := by
    by_cases h1 : a1 < lim
    · exact unionAxis_sent (hx h1) hm
    · rw [unionAxis_other m a0 (by omega)]
      exact hm
  by_cases h2 : a1 + 2 < lim
  · -- The second axis is read after the first one has been written.
    exact grectsUnion_both (hx (by omega)) (hy h2) hm
  · rw [unionAxis_other _ _ (by omega)]
    exact hfst

theorem moveLongs_apply (n : Nat) {src dst : Nat} (m : Mem) (h : dst ≤ src) (i : Nat) :
    moveLongs n src dst m i = if dst ≤ i ∧ i < dst + 4 * n then m (src + (i - dst)) else m i := by
  induction n generalizing src dst m with
  | zero => rw [if_neg (by omega)]; rfl
  | succ k ih =>
    unfold moveLongs
    rw [ih _ (by omega)]
    by_cases hin : dst + 4 ≤ i ∧ i < dst + 4 + 4 * k
    · -- What is read here lies above what has been written so far.
      rw [if_pos hin, if_pos (by omega), moveBytes_apply, if_neg (by omega)]
      congr 1
      omega
    · rw [if_neg hin, moveBytes_apply]
      by_cases hlow : dst ≤ i ∧ i < dst + 4
      · rw [if_pos hlow, if_pos (by omega)]
      · rw [if_neg hlow, if_neg (by omega)]

theorem vmemcpy_apply {dst src : Nat} (n : Nat) (m : Mem) (h : dst ≤ src) (i : Nat) :
    vmemcpy dst src n m i = if dst ≤ i ∧ i < dst + n then m (src + (i - dst)) else m i := by
  unfold vmemcpy
  rw [if_neg (by omega), moveUp_apply n dst src m h]

/-! ## The search -/

/-- The offset that is looked at after `n` messages. -/
def visit (m : Mem) (n : Nat) : BitVec 16 := (nextMsg m)^[n] 0

/-- The message at an offset can get the one at `a3`. -/
def Alike (m : Mem) (a3 : Nat) (d6 : BitVec 16) : Prop :=
  word m (msgAt d6) = word m a3 ∧
    (word m a3 = wmRedraw → word m (a3 + 6) = word m (msgAt d6 + 6))

instance (m : Mem) (a3 : Nat) (d6 : BitVec 16) : Decidable (Alike m a3 d6) :=
  inferInstanceAs (Decidable (_ ∧ _))

/-- Those of the first `n` messages that can get it. -/
def alikes (m : Mem) (a3 n : Nat) : List Nat :=
  (((List.range n).map (visit m)).filter (fun d => Alike m a3 d)).map msgAt

/-- There is nothing left to compare: the end of the queue, a message to be
    overwritten, or a third one to be redrawn. -/
def Stops (ap : Appl) (n : Nat) : Prop :=
  ¬ visit ap.mem n < ap.apLen ∨
    (Alike ap.mem (msgAt ap.apLen) (visit ap.mem n) ∧
      (word ap.mem (msgAt ap.apLen) = wmRedraw → 2 ≤ (alikes ap.mem (msgAt ap.apLen) n).length))

instance (ap : Appl) : DecidablePred (Stops ap) := fun _ => inferInstanceAs (Decidable (_ ∨ _))

/-- The search ends at the `n`-th message. -/
def Stopped (ap : Appl) (n : Nat) : Prop := Stops ap n ∧ ∀ i, i < n → ¬ Stops ap i

/-- What is found there. -/
def found (ap : Appl) (n : Nat) : Found :=
  if visit ap.mem n < ap.apLen ∧ word ap.mem (msgAt ap.apLen) ≠ wmRedraw then
    .overwr (msgAt (visit ap.mem n))
  else .redraws (alikes ap.mem (msgAt ap.apLen) n)

theorem stopped_of_stops (ap : Appl) (n : Nat) (h : Stops ap n) : ∃ k, k ≤ n ∧ Stopped ap k :=
  ⟨Nat.find ⟨n, h⟩, Nat.find_min' _ h, Nat.find_spec ⟨n, h⟩, fun _ hi => Nat.find_min _ hi⟩

theorem word_congr {m m' : Mem} {a a' : Nat} (h0 : (m a).byte = (m' a').byte)
    (h1 : (m (a + 1)).byte = (m' (a' + 1)).byte) : word m a = word m' a' := by
  unfold word
  rw [h0, h1]

theorem visit_succ (m : Mem) (n : Nat) : visit m (n + 1) = nextMsg m (visit m n) :=
  Function.iterate_succ_apply' _ _ _

theorem alikes_succ (m : Mem) (a3 n : Nat) :
    alikes m a3 (n + 1)
      = alikes m a3 n ++ (if Alike m a3 (visit m n) then [msgAt (visit m n)] else []) := by
  unfold alikes
  rw [List.range_succ, List.map_append, List.filter_append, List.map_append]
  congr 1
  by_cases h : Alike m a3 (visit m n)
  · rw [if_pos h]
    simp only [List.map_cons, List.map_nil, h, decide_true, List.filter_cons_of_pos,
      List.filter_nil]
  · rw [if_neg h]
    simp only [List.map_cons, List.map_nil, h, decide_false, Bool.false_eq_true,
      not_false_eq_true, List.filter_cons_of_neg, List.filter_nil]

theorem scanLoop_succ (ap : Appl) (fuel n : Nat) :
    scanLoop ap.mem ap.apLen (msgAt ap.apLen) (fuel + 1) (visit ap.mem n)
        (alikes ap.mem (msgAt ap.apLen) n)
      = if Stops ap n then some (found ap n)
        else scanLoop ap.mem ap.apLen (msgAt ap.apLen) fuel (visit ap.mem (n + 1))
          (alikes ap.mem (msgAt ap.apLen) (n + 1)) := by
  rw [visit_succ, alikes_succ, scanLoop]
  unfold Stops found Alike
  by_cases hlen : visit ap.mem n < ap.apLen
  · by_cases htyp : word ap.mem (msgAt (visit ap.mem n)) = word ap.mem (msgAt ap.apLen)
    · by_cases hred : word ap.mem (msgAt ap.apLen) = wmRedraw
      · by_cases hwin : word ap.mem (msgAt ap.apLen + 6) = word ap.mem (msgAt (visit ap.mem n) + 6)
        · by_cases htwo : 2 ≤ (alikes ap.mem (msgAt ap.apLen) n).length
          · simp [hlen, hred, hwin, htyp, htwo]
          · simp [hlen, hred, hwin, htyp, htwo]
        · simp [hlen, hred, hwin, htyp]
      · simp [hlen, hred, htyp]
    · simp [hlen, htyp]
  · simp [hlen]

theorem scanLoop_from {ap : Appl} {n : Nat} (hn : Stopped ap n) (i fuel : Nat) (hi : i ≤ n) :
    scanLoop ap.mem ap.apLen (msgAt ap.apLen) fuel (visit ap.mem i)
        (alikes ap.mem (msgAt ap.apLen) i)
      = if n - i < fuel then some (found ap n) else none := by
  induction fuel generalizing i with
  | zero => rw [if_neg (by omega)]; rfl
  | succ k ih =>
    rw [scanLoop_succ]
    by_cases hin : i = n
    · subst hin
      rw [if_pos hn.1, if_pos (by omega)]
    · rw [if_neg (hn.2 i (by omega)), ih (i + 1) (by omega)]
      by_cases hk : n - (i + 1) < k
      · rw [if_pos hk, if_pos (by omega)]
      · rw [if_neg hk, if_neg (by omega)]

theorem scanLoop_spec {ap : Appl} {n : Nat} (hn : Stopped ap n) (fuel : Nat) :
    scanLoop ap.mem ap.apLen (msgAt ap.apLen) fuel 0 []
      = if n < fuel then some (found ap n) else none := by
  exact scanLoop_from hn 0 fuel (Nat.zero_le n)

theorem mem_alikes {ap : Appl} {n a : Nat} (hlen : ap.apLen.toNat ≤ apBuflen)
    (hn : ∀ i, i < n → ¬ Stops ap i) (ha : a ∈ alikes ap.mem (msgAt ap.apLen) n) :
    apBuf ≤ a ∧ a < apBuf + ap.apLen.toNat := by
  unfold alikes at ha
  rcases List.mem_map.mp ha with ⟨d, hd, rfl⟩
  rcases List.mem_map.mp (List.mem_filter.mp hd).1 with ⟨i, hi, rfl⟩
  have hlt : visit ap.mem i < ap.apLen :=
    not_not.mp (fun h => hn i (List.mem_range.mp hi) (.inl h))
  rw [BitVec.lt_def] at hlt
  rw [msgAt_of_lt (by unfold apBuflen at hlen; omega)]
  omega

/-! ## The queue -/

def Appl.lim (ap : Appl) : Nat := apBuf + ap.apLen.toNat

/-- The queue lies in the buffer and holds bytes of messages, and who waits has
    found it empty. -/
structure Bounded (ap : Appl) : Prop where
  len : ap.apLen.toNat ≤ apBuflen
  sent : ∀ i, apBuf ≤ i → i < ap.lim → (ap.mem i).sent = true
  waits : ap.rbits = true → ap.hbits = false → ap.apLen = 0

/-- A pending redraw message has room for the joined rectangle, and what the
    queue gets of it came out of messages. -/
structure Joinable (ap : Appl) (d : Nat) : Prop where
  room : d + 16 ≤ apBuf + apBuflen
  horz : d + 8 < ap.lim → SpansSent ap.mem (msgAt ap.apLen + 8) (d + 8)
  vert : d + 10 < ap.lim → SpansSent ap.mem (msgAt ap.apLen + 8 + 2) (d + 8 + 2)

/-- What is found can be overwritten, joined or removed. -/
def Safe (nosmart : Bool) (ap : Appl) : Found → Prop
  | .overwr a4 => a4 + 16 ≤ apBuf + apBuflen ∧
      ∀ k, k < 16 → a4 + k < ap.lim → (ap.mem (msgAt ap.apLen + k)).sent = true
  | .redraws [] => True
  | .redraws [d] => joins nosmart ap.mem (msgAt ap.apLen) d = true → Joinable ap d
  | .redraws (d :: e :: _) => Joinable ap d ∧ e + 16 ≤ ap.lim

def Accepted (ap : Appl) (msgLen : BitVec 16) (atmem : Option Atmem) : Prop :=
  ¬ BitVec.ofNat 16 apBuflen - ap.apLen < msgLen ∧ (atmem.map Atmem.chgown).getD true = true

instance (ap : Appl) (msgLen : BitVec 16) (atmem : Option Atmem) :
    Decidable (Accepted ap msgLen atmem) := inferInstanceAs (Decidable (_ ∧ _))

/-- A call that the buffer stands: nobody reads more than there is, and what a
    message is compared with has an end and is safe. -/
def Proper (ap : Appl) : Op → Prop
  | .write nosmart unique msgLen msg atmem => Accepted ap msgLen atmem →
      (scans unique (word (append ap msgLen (attach msg atmem)).mem (msgAt ap.apLen)) = true →
        ∃ n, Stopped (append ap msgLen (attach msg atmem)) n ∧
          Safe nosmart (append ap msgLen (attach msg atmem))
            (found (append ap msgLen (attach msg atmem)) n)) ∧
      (ap.rbits = true → ap.hbits = false → ap.evparm.msgLen ≤ msgLen)
  | .read p => ap.apLen ≠ 0 → p.msgLen ≤ ap.apLen
  | .resume => True

/-- Nothing outside of the buffer changes. -/
def Within (m m' : Mem) : Prop := ∀ i, i < apBuf ∨ apBuf + apBuflen ≤ i → m' i = m i

/-- What a message does to the queue. -/
structure Written (ap ap' : Appl) (msgLen : BitVec 16) : Prop where
  len : ap'.apLen.toNat ≤ apBuflen
  sent : ∀ i, apBuf ≤ i → i < ap'.lim → (ap'.mem i).sent = true
  within : Within ap.mem ap'.mem
  events : ap'.rbits = ap.rbits ∧ ap'.hbits = ap.hbits ∧ ap'.evparm = ap.evparm
  empty : ap.apLen = 0 → ap'.apLen = msgLen

theorem Appl.end_eq {ap : Appl} (h : ap.apLen.toNat ≤ apBuflen) : msgAt ap.apLen = ap.lim := by
  unfold apBuflen at h
  rw [msgAt_of_lt (by omega)]
  rfl

theorem Accepted.room {ap : Appl} {msgLen : BitVec 16} {atmem : Option Atmem}
    (hlen : ap.apLen.toNat ≤ apBuflen) (h : Accepted ap msgLen atmem) :
    ap.apLen.toNat + msgLen.toNat ≤ apBuflen := by
  have hroom := h.1
  unfold apBuflen at hlen hroom ⊢
  bv_omega

section append

variable {ap : Appl} {msgLen : BitVec 16} {msg : Nat → BitVec 8}

theorem append_apply (hlen : ap.apLen.toNat ≤ apBuflen) (i : Nat) :
    (append ap msgLen msg).mem i = if ap.lim ≤ i ∧ i < ap.lim + msgLen.toNat then
      ⟨msg (i - ap.lim), true⟩ else ap.mem i := by
  unfold append
  dsimp only
  rw [Appl.end_eq hlen, moveBytes_apply, Nat.zero_add]

theorem append_sent (ok : Bounded ap) {i : Nat} (h0 : apBuf ≤ i)
    (h1 : i < ap.lim + msgLen.toNat) : ((append ap msgLen msg).mem i).sent = true := by
  rw [append_apply ok.len]
  by_cases hin : ap.lim ≤ i
  · rw [if_pos ⟨hin, h1⟩]
  · rw [if_neg (by omega)]
    exact ok.sent i h0 (by omega)

theorem append_within (ok : Bounded ap) (room : ap.apLen.toNat + msgLen.toNat ≤ apBuflen) :
    Within ap.mem (append ap msgLen msg).mem := by
  intro i hi
  rw [append_apply ok.len, if_neg]
  unfold Appl.lim
  omega

theorem append_bounded (ok : Bounded ap) : Bounded (append ap msgLen msg) where
  len := ok.len
  sent := fun _ h0 h1 => append_sent ok h0 (Nat.lt_of_lt_of_le h1 (Nat.le_add_right _ _))
  waits := ok.waits

end append

/-! ## Whole messages -/

/-- The queue consists of `n` messages of 16 bytes and their overlengths. -/
structure Whole (ap : Appl) (n : Nat) : Prop where
  last : visit ap.mem n = ap.apLen
  next : ∀ i, i < n → (visit ap.mem i).toNat + 16 ≤ (visit ap.mem (i + 1)).toNat

section whole

variable {ap : Appl} {n i : Nat} {msgLen : BitVec 16} {msg : Nat → BitVec 8}

theorem Whole.room (h : Whole ap n) (hi : i < n) :
    (visit ap.mem i).toNat + 16 ≤ ap.apLen.toNat := by
  have hmore : ∀ j, i + 1 + j ≤ n →
      (visit ap.mem i).toNat + 16 ≤ (visit ap.mem (i + 1 + j)).toNat := by
    intro j
    induction j with
    | zero => exact fun _ => h.next i hi
    | succ j ih =>
      intro hj
      have hnext := h.next (i + 1 + j) (by omega)
      exact Nat.le_trans (ih (by omega)) (by rw [← Nat.add_assoc]; omega)
  have hlast := hmore (n - (i + 1)) (by omega)
  rwa [Nat.add_sub_cancel' hi, h.last] at hlast

/-- A message of the queue lies in the buffer. -/
theorem Whole.inside (ok : Bounded ap) (h : Whole ap n) (hi : i < n) :
    apBuf ≤ msgAt (visit ap.mem i) ∧ msgAt (visit ap.mem i) + 16 ≤ ap.lim := by
  have hroom := h.room hi
  have hlen := ok.len
  unfold apBuflen at hlen
  rw [msgAt_of_lt (by omega)]
  unfold Appl.lim
  omega

/-- What is written behind the queue is not looked at. -/
theorem Whole.append (ok : Bounded ap) (h : Whole ap n) : Whole (append ap msgLen msg) n := by
  have hvisit : ∀ i, i ≤ n → visit (Msg.append ap msgLen msg).mem i = visit ap.mem i := by
    intro i
    induction i with
    | zero => exact fun _ => rfl
    | succ i ih =>
      intro hi
      rcases h.inside ok hi with ⟨-, hin⟩
      have hsame : ∀ k, k < 16 → (Msg.append ap msgLen msg).mem (msgAt (visit ap.mem i) + k) =
          ap.mem (msgAt (visit ap.mem i) + k) := fun k hk => by
        rw [append_apply ok.len, if_neg (by omega)]
      have hword : word (Msg.append ap msgLen msg).mem (msgAt (visit ap.mem i) + 4) =
          word ap.mem (msgAt (visit ap.mem i) + 4) :=
        word_congr (by rw [hsame 4 (by omega)]) (by rw [Nat.add_assoc, hsame 5 (by omega)])
      rw [visit_succ, visit_succ, ih (by omega), nextMsg, nextMsg, hword]
  refine ⟨(hvisit n (Nat.le_refl n)).trans h.last, fun i hi => ?_⟩
  rw [hvisit i (by omega), hvisit (i + 1) hi]
  exact h.next i hi

theorem Whole.joinable {d : Nat} (ok : Bounded ap)
    (hnew : ∀ k, k < 16 → (ap.mem (ap.lim + k)).sent = true) (h0 : apBuf ≤ d)
    (h1 : d + 16 ≤ ap.lim) : Joinable ap d := by
  have hold : ∀ k, k < 16 → (ap.mem (d + k)).sent = true :=
    fun k hk => ok.sent _ (by omega) (by omega)
  have hword : ∀ m : Mem, ∀ a k, (∀ k, k < 16 → (m (a + k)).sent = true) → k < 15 →
      wordSent m (a + k) = true := fun m a k hs hk =>
    Bool.and_eq_true_iff.mpr ⟨hs k (by omega), hs (k + 1) (by omega)⟩
  have hlim : ap.lim ≤ apBuf + apBuflen := Nat.add_le_add_left ok.len apBuf
  refine ⟨by omega, fun _ => ?_, fun _ => ?_⟩
  · rw [Appl.end_eq ok.len, SpansSent, Nat.add_assoc, Nat.add_assoc, hword _ _ 8 hnew (by omega),
      hword _ _ 12 hnew (by omega), hword _ _ 8 hold (by omega), hword _ _ 12 hold (by omega)]
    rfl
  · rw [Appl.end_eq ok.len, SpansSent, Nat.add_assoc, Nat.add_assoc, Nat.add_assoc, Nat.add_assoc,
      hword _ _ 10 hnew (by omega), hword _ _ 14 hnew (by omega), hword _ _ 10 hold (by omega),
      hword _ _ 14 hold (by omega)]
    rfl

theorem Whole.safe {nosmart : Bool} (ok : Bounded ap) (h : Whole ap n)
    (hnew : ∀ k, k < 16 → (ap.mem (ap.lim + k)).sent = true) :
    ∃ k, Stopped ap k ∧ Safe nosmart ap (found ap k) := by
  rcases stopped_of_stops ap n
    (.inl (by rw [h.last]; exact BitVec.lt_irrefl _)) with ⟨k, hk, hs⟩
  have hlim : ap.lim ≤ apBuf + apBuflen := Nat.add_le_add_left ok.len apBuf
  have hmem : ∀ d ∈ alikes ap.mem (msgAt ap.apLen) k, apBuf ≤ d ∧ d + 16 ≤ ap.lim := by
    intro d hd
    rcases List.mem_map.mp hd with ⟨v, hv, rfl⟩
    rcases List.mem_map.mp (List.mem_filter.mp hv).1 with ⟨i, hi, rfl⟩
    exact h.inside ok (Nat.lt_of_lt_of_le (List.mem_range.mp hi) hk)
  refine ⟨k, hs, ?_⟩
  unfold found
  split
  · rename_i hover
    have hkn : k < n := by
      refine Nat.lt_of_le_of_ne hk fun heq => ?_
      rw [heq, h.last] at hover
      exact BitVec.lt_irrefl _ hover.1
    rcases h.inside ok hkn with ⟨h0, h1⟩
    exact ⟨by omega, fun j hj _ => by rw [Appl.end_eq ok.len]; exact hnew j hj⟩
  · generalize alikes ap.mem (msgAt ap.apLen) k = l at hmem
    match l, hmem with
    | [], _ => exact trivial
    | [d], hmem =>
      rcases hmem d List.mem_cons_self with ⟨h0, h1⟩
      exact fun _ => Whole.joinable ok hnew h0 h1
    | d :: e :: _, hmem =>
      rcases hmem d List.mem_cons_self with ⟨h0, h1⟩
      exact ⟨Whole.joinable ok hnew h0 h1, (hmem e (List.mem_cons_of_mem _ List.mem_cons_self)).2⟩

/-- A message of 16 bytes or more can be written behind whole messages. -/
theorem Whole.proper_write {nosmart unique : Bool} {atmem : Option Atmem} (ok : Bounded ap)
    (h : Whole ap n) (hlong : 16 ≤ msgLen.toNat)
    (hwait : ap.rbits = true → ap.hbits = false → ap.evparm.msgLen ≤ msgLen) :
    Proper ap (.write nosmart unique msgLen msg atmem) := by
  refine fun _ => ⟨fun _ => ?_, hwait⟩
  have hbuf : apBuf ≤ ap.lim := Nat.le_add_right _ _
  exact (h.append ok).safe (append_bounded ok) fun k hk =>
    append_sent ok (Nat.le_trans hbuf (Nat.le_add_right _ k))
      (Nat.add_lt_add_left (Nat.lt_of_lt_of_le hk hlong) ap.lim)

/-- The first message can be read as a whole. -/
theorem Whole.proper_read {p : Parm} (h : Whole ap n) (hp : p.msgLen = visit ap.mem 1) :
    Proper ap (.read p) := by
  intro hne
  rcases n with - | n
  · exact absurd h.last.symm hne
  · rw [hp, BitVec.le_def]
    rcases n with - | n
    · exact Nat.le_of_eq (congrArg BitVec.toNat h.last)
    · have hroom := h.room (i := 1) (by omega)
      omega

end whole

section found

variable {ap : Appl} {msgLen : BitVec 16} {msg : Nat → BitVec 8} {nosmart : Bool}

theorem join_sent (ok : Bounded ap) {d : Nat} (hd : Joinable ap d) {i : Nat} (h0 : apBuf ≤ i)
    (h1 : i < ap.lim) : (grectsUnion ap.mem (msgAt ap.apLen + 8) (d + 8) i).sent = true :=
  grectsUnion_sent hd.horz (fun h => hd.vert (by omega)) h1 (ok.sent i h0 h1)

theorem join_within {d a0 : Nat} {m : Mem} (h0 : apBuf ≤ d) (room : d + 16 ≤ apBuf + apBuflen) :
    Within m (grectsUnion m a0 (d + 8)) := by
  intro i hi
  exact grectsUnion_other m a0 (by omega)

theorem Within.trans {m m' m'' : Mem} (h : Within m m') (h' : Within m' m'') : Within m m'' :=
  fun a ha => (h' a ha).trans (h a ha)

theorem behind_eq (ok : Bounded ap) {e : Nat} (he : e + 16 ≤ ap.lim) :
    behind ap.apLen e = ap.lim - (e + 16) := by
  have hlen := ok.len
  unfold behind
  rw [Appl.end_eq ok.len]
  unfold Appl.lim apBuf at he ⊢
  unfold apBuflen at hlen
  omega

theorem join_again (ok : Bounded ap) {d e : Nat} (hd : Joinable ap d) (he : apBuf ≤ e)
    (hend : e + 16 ≤ ap.lim) {i : Nat} (h0 : apBuf ≤ i) (h1 : i < ap.lim) :
    (grectsUnion (grectsUnion ap.mem (msgAt ap.apLen + 8) (d + 8)) (e + 8) (d + 8) i).sent
      = true := by
  have hmid : ∀ j, apBuf ≤ j → j < ap.lim →
      (grectsUnion ap.mem (msgAt ap.apLen + 8) (d + 8) j).sent = true :=
    fun j h0 h1 => join_sent ok hd h0 h1
  have hhorz : d + 8 < ap.lim →
      SpansSent (grectsUnion ap.mem (msgAt ap.apLen + 8) (d + 8)) (e + 8) (d + 8) := by
    intro h
    have hs := hd.horz h
    simp only [SpansSent, wordSent, Bool.and_eq_true] at hs ⊢
    refine ⟨⟨⟨⟨hmid _ (by omega) (by omega), hmid _ (by omega) (by omega)⟩,
      hmid _ (by omega) (by omega), hmid _ (by omega) (by omega)⟩, ?_⟩, ?_⟩
    · exact ⟨grectsUnion_horz (hd.horz h) hs.1.2.1 (by omega),
        grectsUnion_horz (hd.horz h) hs.1.2.2 (by omega)⟩
    · exact ⟨grectsUnion_horz (hd.horz h) hs.2.1 (by omega),
        grectsUnion_horz (hd.horz h) hs.2.2 (by omega)⟩
  have hvert : d + 10 < ap.lim →
      SpansSent (grectsUnion ap.mem (msgAt ap.apLen + 8) (d + 8)) (e + 8 + 2) (d + 8 + 2) := by
    intro h
    have hboth : ∀ {j}, (ap.mem j).sent = true →
        (grectsUnion ap.mem (msgAt ap.apLen + 8) (d + 8) j).sent = true :=
      grectsUnion_both (hd.horz (by omega)) (hd.vert h)
    have hs := hd.vert h
    simp only [SpansSent, wordSent, Bool.and_eq_true] at hs ⊢
    refine ⟨⟨⟨⟨hmid _ (by omega) (by omega), hmid _ (by omega) (by omega)⟩,
      hmid _ (by omega) (by omega), hmid _ (by omega) (by omega)⟩, ?_⟩, ?_⟩
    · exact ⟨hboth hs.1.2.1, hboth hs.1.2.2⟩
    · exact ⟨hboth hs.2.1, hboth hs.2.2⟩
  exact grectsUnion_sent hhorz (fun h => hvert (by omega)) h1 (hmid i h0 h1)

variable (msgLen) in
theorem three_spec (ok : Bounded ap) {d e : Nat} {l : List Nat} (hd : apBuf ≤ d) (he : apBuf ≤ e)
    (safe : Safe nosmart ap (.redraws (d :: e :: l))) :
    let ap' := rwapFound nosmart ap msgLen (.redraws (d :: e :: l))
    ap'.lim + 16 = ap.lim ∧ Within ap.mem ap'.mem ∧
      ∀ i, apBuf ≤ i → i < ap'.lim → (ap'.mem i).sent = true := by
  have hj : Joinable ap d := safe.1
  have hend : e + 16 ≤ ap.lim := safe.2
  have hlen := ok.len
  have hlim : (rwapFound nosmart ap msgLen (.redraws (d :: e :: l))).lim + 16 = ap.lim := by
    unfold Appl.lim at hend ⊢
    unfold rwapFound
    dsimp only
    unfold apBuf apBuflen at *
    bv_omega
  refine ⟨hlim, ?_, ?_⟩
  · intro i hi
    have hroom := hj.room
    unfold rwapFound
    dsimp only
    rw [vmemcpy_apply _ _ (by omega), behind_eq ok hend, if_neg (by unfold Appl.lim at *; omega),
      grectsUnion_other _ _ (by omega), grectsUnion_other _ _ (by omega)]
  · intro i h0 h1
    have hmid : ∀ j, apBuf ≤ j → j < ap.lim → (grectsUnion
        (grectsUnion ap.mem (msgAt ap.apLen + 8) (d + 8)) (e + 8) (d + 8) j).sent = true :=
      fun _ h0 h1 => join_again ok hj he hend h0 h1
    unfold rwapFound
    dsimp only
    rw [vmemcpy_apply _ _ (by omega), behind_eq ok hend]
    by_cases hin : e ≤ i ∧ i < e + (ap.lim - (e + 16))
    · rw [if_pos hin]
      exact hmid _ (by omega) (by omega)
    · rw [if_neg hin]
      exact hmid _ h0 (by omega)

theorem found_empty {n : Nat} (hn : Stopped ap n) (h : ap.apLen = 0) :
    found ap n = .redraws [] := by
  have hzero : Stops ap 0 := by
    refine .inl ?_
    rw [h]
    exact BitVec.not_lt_zero
  have hn0 : n = 0 := by
    by_contra hne
    exact hn.2 0 (by omega) hzero
  subst hn0
  unfold found
  rw [if_neg (fun hv => by rw [h] at hv; exact BitVec.not_lt_zero hv.1)]
  rfl

theorem longer_spec (ok : Bounded ap) (room : ap.apLen.toNat + msgLen.toNat ≤ apBuflen) :
    Written ap { append ap msgLen msg with apLen := ap.apLen + msgLen } msgLen := by
  have hsum : (ap.apLen + msgLen).toNat = ap.apLen.toNat + msgLen.toNat := by
    rw [BitVec.toNat_add, Nat.mod_eq_of_lt]
    unfold apBuflen at room
    omega
  refine ⟨?_, ?_, append_within ok room, ⟨rfl, rfl, rfl⟩, ?_⟩
  · dsimp only
    omega
  · intro i h0 h1
    refine append_sent ok h0 ?_
    unfold Appl.lim at h1 ⊢
    dsimp only at h1
    omega
  · intro h
    dsimp only
    rw [h]
    exact BitVec.zero_add msgLen

theorem Written.same (ok : Bounded ap) {m : Mem} (hin : Within ap.mem m)
    (hsent : ∀ i, apBuf ≤ i → i < ap.lim → (m i).sent = true) (hne : ap.apLen ≠ 0) :
    Written ap { append ap msgLen msg with mem := m } msgLen where
  len := ok.len
  sent := hsent
  within := hin
  events := ⟨rfl, rfl, rfl⟩
  empty := fun h => absurd h hne

theorem found_overwr {n a4 : Nat} (hf : found ap n = .overwr a4) :
    visit ap.mem n < ap.apLen ∧ a4 = msgAt (visit ap.mem n) := by
  unfold found at hf
  split at hf
  · rename_i hv
    exact ⟨hv.1, (Found.overwr.inj hf).symm⟩
  · cases hf

theorem found_redraws {n : Nat} {d5 : List Nat} (hf : found ap n = .redraws d5) :
    d5 = alikes ap.mem (msgAt ap.apLen) n := by
  unfold found at hf
  split at hf
  · cases hf
  · exact (Found.redraws.inj hf).symm

theorem rwapFound_spec (ok : Bounded ap) (room : ap.apLen.toNat + msgLen.toNat ≤ apBuflen)
    {n : Nat} (hn : Stopped (append ap msgLen msg) n)
    (safe : Safe nosmart (append ap msgLen msg) (found (append ap msgLen msg) n)) :
    Written ap (rwapFound nosmart (append ap msgLen msg) msgLen (found (append ap msgLen msg) n))
      msgLen := by
  have ok' : Bounded (append ap msgLen msg) := append_bounded ok
  have hin : Within ap.mem (append ap msgLen msg).mem := append_within ok room
  have hempty : found (append ap msgLen msg) n ≠ .redraws [] → ap.apLen ≠ 0 :=
    fun hne h => hne (found_empty hn h)
  have hat : ∀ a, a ∈ alikes (append ap msgLen msg).mem (msgAt (append ap msgLen msg).apLen) n →
      apBuf ≤ a := fun a ha => (mem_alikes ok'.len hn.2 ha).1
  cases hf : found (append ap msgLen msg) n with
  | overwr a4 =>
    rw [hf] at safe hempty
    have ha4 : apBuf ≤ a4 ∧ a4 < ap.lim := by
      have hlt := (found_overwr hf).1
      have hlen := ok'.len
      rw [BitVec.lt_def] at hlt
      unfold apBuflen at hlen
      rw [(found_overwr hf).2, msgAt_of_lt (by omega)]
      exact ⟨Nat.le_add_right _ _, Nat.add_lt_add_left hlt _⟩
    refine Written.same ok (hin.trans ?_) ?_ (hempty (fun h => by cases h))
    · intro i hi
      have hroom : a4 + 16 ≤ apBuf + apBuflen := safe.1
      rw [moveLongs_apply _ _ (by rw [Appl.end_eq ok'.len]; exact Nat.le_of_lt ha4.2),
        if_neg (by omega)]
    · intro i h0 h1
      rw [moveLongs_apply _ _ (by rw [Appl.end_eq ok'.len]; exact Nat.le_of_lt ha4.2)]
      by_cases hi : a4 ≤ i ∧ i < a4 + 4 * 4
      · rw [if_pos hi]
        exact safe.2 (i - a4) (by omega) (by rw [show a4 + (i - a4) = i by omega]; exact h1)
      · rw [if_neg hi]
        exact ok'.sent i h0 h1
  | redraws d5 =>
    rw [← found_redraws hf] at hat
    rw [hf] at safe hempty
    clear hf
    match d5, hat, safe, hempty with
    | [], _, _, _ => exact longer_spec ok room
    | [d], hat, safe, hempty =>
      simp only [rwapFound]
      by_cases hj : joins nosmart (append ap msgLen msg).mem
          (msgAt (append ap msgLen msg).apLen) d = true
      · rw [if_pos hj]
        have hjoin : Joinable (append ap msgLen msg) d := safe hj
        refine Written.same ok
          (hin.trans (join_within (hat d (List.mem_singleton_self d)) hjoin.room))
          (fun i h0 h1 => join_sent ok' hjoin h0 h1) (hempty (fun h => by cases h))
      · rw [if_neg hj]
        exact longer_spec ok room
    | d :: e :: l, hat, safe, hempty =>
      have h3 := three_spec msgLen ok' (hat d List.mem_cons_self)
        (hat e (List.mem_cons_of_mem _ List.mem_cons_self)) safe
      have hlen := ok.len
      refine ⟨?_, h3.2.2, hin.trans h3.2.1, ⟨rfl, rfl, rfl⟩,
        fun h => absurd h (hempty (fun h => by cases h))⟩
      have hlim := h3.1
      unfold Appl.lim at hlim
      have heq : (append ap msgLen msg).apLen = ap.apLen := rfl
      rw [heq] at hlim
      omega

/-- Writing comes to an end, and keeps the queue. -/
theorem rwapWrite_spec (ok : Bounded ap) (room : ap.apLen.toNat + msgLen.toNat ≤ apBuflen)
    {unique : Bool}
    (hscan : scans unique (word (append ap msgLen msg).mem (msgAt ap.apLen)) = true →
      ∃ n, Stopped (append ap msgLen msg) n ∧
        Safe nosmart (append ap msgLen msg) (found (append ap msgLen msg) n)) :
    ∃ ap', Written ap ap' msgLen ∧
      (∃ fuel, rwapWrite fuel nosmart unique ap msgLen msg = some ap') ∧
      ∀ fuel ap'', rwapWrite fuel nosmart unique ap msgLen msg = some ap'' → ap'' = ap' := by
  by_cases hs : scans unique (word (append ap msgLen msg).mem (msgAt ap.apLen)) = true
  · rcases hscan hs with ⟨n, hn, safe⟩
    have heq : ∀ fuel, rwapWrite fuel nosmart unique ap msgLen msg = if n < fuel then
        some (rwapFound nosmart (append ap msgLen msg) msgLen (found (append ap msgLen msg) n))
        else none := by
      intro fuel
      refine (if_pos hs).trans ?_
      rw [scanLoop_spec hn]
      by_cases hfuel : n < fuel
      · rw [if_pos hfuel, if_pos hfuel]
        rfl
      · rw [if_neg hfuel, if_neg hfuel]
        rfl
    refine ⟨_, rwapFound_spec ok room hn safe, ⟨n + 1, ?_⟩, fun fuel ap'' h => ?_⟩
    · rw [heq, if_pos (Nat.lt_succ_self n)]
    · rw [heq] at h
      by_cases hfuel : n < fuel
      · rw [if_pos hfuel] at h
        exact (Option.some.inj h).symm
      · rw [if_neg hfuel] at h
        cases h
  · have heq : ∀ fuel, rwapWrite fuel nosmart unique ap msgLen msg =
        some { append ap msgLen msg with apLen := ap.apLen + msgLen } := fun fuel => if_neg hs
    refine ⟨_, longer_spec ok room, ⟨0, heq 0⟩, fun fuel ap'' h => ?_⟩
    rw [heq] at h
    exact (Option.some.inj h).symm

end found

/-- What reading does to the queue, and to the buffer of the reader. -/
structure ReadOff (ap ap' : Appl) (p q : Parm) : Prop where
  len : ap'.apLen.toNat = ap.apLen.toNat - p.msgLen.toNat
  sent : ∀ i, apBuf ≤ i → i < ap'.lim → (ap'.mem i).sent = true
  within : Within ap.mem ap'.mem
  events : ap'.rbits = ap.rbits ∧ ap'.hbits = ap.hbits ∧ ap'.evparm = ap.evparm
  front : ∀ i, i < p.msgLen.toNat → q.buf i = ap.mem (apBuf + i) ∧ (q.buf i).sent = true
  rest : ∀ i, p.msgLen.toNat ≤ i → q.buf i = p.buf i

theorem rwapRead_spec {ap : Appl} {p : Parm} (hlen : ap.apLen.toNat ≤ apBuflen)
    (hsent : ∀ i, apBuf ≤ i → i < ap.lim → (ap.mem i).sent = true) (hp : p.msgLen ≤ ap.apLen) :
    ReadOff ap (rwapRead ap p).1 p (rwapRead ap p).2 := by
  have hle : p.msgLen.toNat ≤ ap.apLen.toNat := BitVec.le_def.mp hp
  have hsub : (ap.apLen - p.msgLen).toNat = ap.apLen.toNat - p.msgLen.toNat :=
    BitVec.toNat_sub_of_le hp
  have hat : msgAt p.msgLen = apBuf + p.msgLen.toNat :=
    msgAt_of_lt (by unfold apBuflen at hlen; omega)
  -- The rest of the queue moves to the start of the buffer.
  have hmem : ∀ i, (rwapRead ap p).1.mem i =
      if apBuf ≤ i ∧ i < apBuf + (ap.apLen.toNat - p.msgLen.toNat) then
        ap.mem (p.msgLen.toNat + i) else ap.mem i := by
    intro i
    unfold rwapRead
    dsimp only
    by_cases h0 : ap.apLen - p.msgLen = 0
    · rw [if_pos h0, if_neg]
      rw [h0] at hsub
      have hz : ap.apLen.toNat - p.msgLen.toNat = 0 := hsub.symm
      omega
    · rw [if_neg h0, vmemcpy_apply _ _ (by omega), hsub, hat]
      by_cases hi : apBuf ≤ i ∧ i < apBuf + (ap.apLen.toNat - p.msgLen.toNat)
      · rw [if_pos hi, if_pos hi,
          show apBuf + p.msgLen.toNat + (i - apBuf) = p.msgLen.toNat + i by omega]
      · exact (if_neg hi).trans (if_neg hi).symm
  have hfront : ∀ i, i < p.msgLen.toNat → (rwapRead ap p).2.buf i = ap.mem (apBuf + i) := by
    intro i hi
    unfold rwapRead
    dsimp only
    rw [moveBytes_apply, if_pos (by omega), Nat.sub_zero]
  refine ⟨hsub, ?_, ?_, ⟨rfl, rfl, rfl⟩, ?_, ?_⟩
  · intro i h0 h1
    have hlim : (rwapRead ap p).1.lim = apBuf + (ap.apLen.toNat - p.msgLen.toNat) := by
      rw [← hsub]
      rfl
    rw [hlim] at h1
    rw [hmem, if_pos ⟨h0, h1⟩]
    exact hsent _ (by omega) (by unfold Appl.lim; omega)
  · intro i hi
    rw [hmem, if_neg (by omega)]
  · intro i hi
    rw [hfront i hi]
    exact ⟨rfl, hsent _ (by omega) (by unfold Appl.lim; omega)⟩
  · intro i hi
    unfold rwapRead
    dsimp only
    rw [moveBytes_apply, if_neg (by omega)]

/-! ## Runs -/

/-- The call that reads: the one that is made, or the one that waits. -/
def reader (ap : Appl) : Op → Parm
  | .read p => p
  | _ => ap.evparm

/-- A step that stays in its bounds: in `ap_buf`, and in the first bytes of the
    reader's buffer, which get bytes of messages. -/
structure Sound (ap : Appl) (op : Op) (ap' : Appl) (out : Option Parm) : Prop where
  bounded : Bounded ap'
  within : Within ap.mem ap'.mem
  delivered : ∀ q, out = some q →
    (∀ i, i < (reader ap op).msgLen.toNat → (q.buf i).sent = true) ∧
    ∀ i, (reader ap op).msgLen.toNat ≤ i → q.buf i = (reader ap op).buf i

theorem applRead_sound {ap : Appl} {p : Parm} (ok : Bounded ap) (he : Enabled ap (.read p))
    (hp : Proper ap (.read p)) : Sound ap (.read p) (applRead ap p).1 (applRead ap p).2 := by
  have hrun : ap.rbits = false := he
  unfold applRead
  by_cases h0 : ap.apLen = 0
  · rw [if_pos h0]
    exact ⟨⟨ok.len, ok.sent, fun _ _ => h0⟩, fun _ _ => rfl, fun _ h => by cases h⟩
  · rw [if_neg h0]
    have hr := rwapRead_spec ok.len ok.sent (hp h0)
    refine ⟨⟨?_, hr.sent, fun h => ?_⟩, hr.within, ?_⟩
    · have hlen := hr.len
      dsimp only
      have hold := ok.len
      omega
    · rw [hr.events.1, hrun] at h
      cases h
    · intro q hq
      cases hq
      exact ⟨fun i hi => (hr.front i hi).2, hr.rest⟩

/-- The one who waits gets the message that arrives. -/
def handOver (ap : Appl) : Appl × Option Parm × Int :=
  if ap.rbits && !ap.hbits then
    ({ (rwapRead ap ap.evparm).1 with hbits := true, evparm := (rwapRead ap ap.evparm).2 },
      some (rwapRead ap ap.evparm).2, 1)
  else (ap, none, 1)

theorem applWrite_eq (fuel : Nat) (nosmart unique : Bool) (ap : Appl) (msgLen : BitVec 16)
    (msg : Nat → BitVec 8) (atmem : Option Atmem) :
    applWrite fuel nosmart unique ap msgLen msg atmem =
      if Accepted ap msgLen atmem then
        (rwapWrite fuel nosmart unique ap msgLen (attach msg atmem)).map handOver
      else some (ap, none, if BitVec.ofNat 16 apBuflen - ap.apLen < msgLen then 0 else -1) := by
  unfold applWrite
  by_cases hfull : BitVec.ofNat 16 apBuflen - ap.apLen < msgLen
  · rw [if_pos hfull, if_neg (fun h => h.1 hfull), if_pos hfull]
  · rw [if_neg hfull]
    by_cases hm : (atmem.map Atmem.chgown).getD true = true
    · rw [if_neg (by rw [hm]; exact Bool.noConfusion), if_pos ⟨hfull, hm⟩]
      rfl
    · rw [if_pos (eq_false_of_ne_true hm), if_neg (fun h => hm h.2), if_neg hfull]

theorem handOver_sound {ap ap' : Appl} (ok : Bounded ap) {nosmart unique : Bool}
    {msgLen : BitVec 16} {msg : Nat → BitVec 8} {atmem : Option Atmem}
    (hw : Written ap ap' msgLen)
    (hwait : ap.rbits = true → ap.hbits = false → ap.evparm.msgLen ≤ msgLen) :
    Sound ap (.write nosmart unique msgLen msg atmem) (handOver ap').1 (handOver ap').2.1 := by
  unfold handOver
  by_cases hb : (ap'.rbits && !ap'.hbits) = true
  · rw [if_pos hb]
    simp only [Bool.and_eq_true, Bool.not_eq_true', hw.events.1, hw.events.2.1] at hb
    -- Who waits has found the queue empty, so what there is is the message.
    have hle : ap'.evparm.msgLen ≤ ap'.apLen := by
      rw [hw.empty (ok.waits hb.1 hb.2), hw.events.2.2]
      exact hwait hb.1 hb.2
    have hr := rwapRead_spec hw.len hw.sent hle
    refine ⟨⟨?_, hr.sent, fun _ h => by cases h⟩, hw.within.trans hr.within, ?_⟩
    · have hlen := hr.len
      have hold := hw.len
      dsimp only
      omega
    · intro q hq
      cases hq
      have hp : ap'.evparm = reader ap (.write nosmart unique msgLen msg atmem) := hw.events.2.2
      rw [← hp]
      exact ⟨fun i hi => (hr.front i hi).2, hr.rest⟩
  · rw [if_neg hb]
    refine ⟨⟨hw.len, hw.sent, fun h0 h1 => absurd ?_ hb⟩, hw.within, fun _ h => by cases h⟩
    rw [h0, h1]
    rfl

theorem applWrite_sound {ap : Appl} (ok : Bounded ap) {nosmart unique : Bool}
    {msgLen : BitVec 16} {msg : Nat → BitVec 8} {atmem : Option Atmem}
    (hp : Proper ap (.write nosmart unique msgLen msg atmem)) :
    (∃ fuel r, applWrite fuel nosmart unique ap msgLen msg atmem = some r) ∧
      ∀ fuel r, applWrite fuel nosmart unique ap msgLen msg atmem = some r →
        Sound ap (.write nosmart unique msgLen msg atmem) r.1 r.2.1 := by
  simp only [applWrite_eq]
  by_cases hacc : Accepted ap msgLen atmem
  · simp only [if_pos hacc]
    rcases rwapWrite_spec ok (hacc.room ok.len) (hp hacc).1 with ⟨ap', hw, hex, huniq⟩
    rcases hex with ⟨fuel, hfuel⟩
    refine ⟨⟨fuel, handOver ap', by rw [hfuel]; rfl⟩, fun fuel r h => ?_⟩
    rcases Option.map_eq_some_iff.mp h with ⟨ap'', h1, rfl⟩
    rw [huniq fuel ap'' h1]
    exact handOver_sound ok hw (hp hacc).2
  · simp only [if_neg hacc]
    refine ⟨⟨0, _, rfl⟩, fun _ r h => ?_⟩
    rw [← Option.some.inj h]
    exact ⟨ok, fun _ _ => rfl, fun _ h => by cases h⟩

theorem step_sound {ap : Appl} (ok : Bounded ap) {op : Op} (he : Enabled ap op)
    (hp : Proper ap op) :
    (∃ fuel r, step fuel ap op = some r) ∧
      ∀ fuel r, step fuel ap op = some r → Sound ap op r.1 r.2 := by
  cases op with
  | write nosmart unique msgLen msg atmem =>
    have hw := applWrite_sound ok hp
    constructor
    · rcases hw.1 with ⟨fuel, r, h⟩
      exact ⟨fuel, (r.1, r.2.1), Option.map_eq_some_iff.mpr ⟨r, h, rfl⟩⟩
    · intro fuel r h
      rcases Option.map_eq_some_iff.mp h with ⟨r', h1, rfl⟩
      exact hw.2 fuel r' h1
  | read p =>
    refine ⟨⟨0, _, rfl⟩, fun fuel r h => ?_⟩
    rw [← Option.some.inj h]
    exact applRead_sound ok he hp
  | resume =>
    refine ⟨⟨0, _, rfl⟩, fun fuel r h => ?_⟩
    rw [← Option.some.inj h]
    exact ⟨⟨ok.len, ok.sent, fun h => by cases h⟩, fun _ _ => rfl, fun _ h => by cases h⟩

/-- What is done to the buffer, and what is read in doing so. -/
def ApStep (ap : Appl) (l : Op × Option Parm) (ap' : Appl) : Prop :=
  Enabled ap l.1 ∧ ∃ fuel, step fuel ap l.1 = some (ap', l.2)

def ProperStep (ap : Appl) (l : Op × Option Parm) (ap' : Appl) : Prop :=
  ApStep ap l ap' ∧ Proper ap l.1

/-- The buffer of a new application: empty, and nothing in it is a message. -/
structure Start (ap : Appl) : Prop where
  len : ap.apLen = 0
  rbits : ap.rbits = false
  unsent : ∀ i, (ap.mem i).sent = false

theorem Start.bounded {ap : Appl} (h : Start ap) : Bounded ap := by
  refine ⟨?_, fun i h0 h1 => ?_, fun _ _ => h.len⟩
  · rw [h.len]
    exact Nat.zero_le _
  · unfold Appl.lim at h1
    rw [h.len] at h1
    exact absurd h1 (Nat.not_lt.mpr h0)

/-- In every run of proper calls the queue lies in the buffer, and each of them
    terminates, writes in `ap_buf` and the first bytes of the reader's buffer
    only, and delivers bytes of messages. -/
theorem buffer_bounded (ap₀ ap : Appl) (ls : List (Op × Option Parm)) (h₀ : Start ap₀)
    (hrun : Runs.Run ProperStep ap₀ ls ap) :
    ap.apLen.toNat ≤ apBuflen ∧ ∀ op, Enabled ap op → Proper ap op →
      (∃ fuel r, step fuel ap op = some r) ∧
      ∀ fuel r, step fuel ap op = some r → Sound ap op r.1 r.2 := by
  have hstep : ∀ s l t, Bounded s → ProperStep s l t → Bounded t := by
    intro s l t hs ht
    rcases ht.1.2 with ⟨fuel, h⟩
    exact ((step_sound hs ht.1.1 ht.2).2 fuel _ h).bounded
  have ok : Bounded ap := Runs.run_preserves ProperStep Bounded hstep ap₀ ap ls hrun h₀.bounded
  exact ⟨ok.len, fun op he hp => step_sound ok he hp⟩

def demoAppl : Appl := ⟨0, fun _ => ⟨0, false⟩, false, false, ⟨0, fun _ => ⟨0, false⟩⟩⟩

theorem demoAppl_start : Start demoAppl := ⟨rfl, rfl, fun _ => rfl⟩

/-- A redraw message for the whole of a small window. -/
def demoRedraw (k : Nat) : BitVec 8 := if k = 1 then 20 else if k = 13 ∨ k = 15 then 8 else 0

/-- A message for a reader that waits, and two more, of which the second is
    joined to the first. -/
theorem buffer_bounded_wait :
    ∃ ap ls, Runs.Run ProperStep demoAppl ls ap ∧ ls.length = 5 ∧ ap.apLen = 16 ∧
      ap.apLen.toNat ≤ apBuflen ∧ ∀ op, Enabled ap op → Proper ap op →
        ∀ fuel r, step fuel ap op = some r → Sound ap op r.1 r.2 := by
  have hrun : ∃ ap, ∃ l₁ l₂ l₃ l₄ l₅, Runs.Run ProperStep demoAppl [l₁, l₂, l₃, l₄, l₅] ap ∧
      ap.apLen = 16 := by
    refine ⟨_, (.read ⟨16, fun _ => ⟨0, false⟩⟩, _), (.write true false 16 demoRedraw none, _),
      (.resume, _), (.write true false 16 demoRedraw none, _),
      (.write true false 16 demoRedraw none, _),
      .cons _ _ _ _ _ ⟨⟨rfl, 0, rfl⟩, fun h => absurd rfl h⟩
      (.cons _ _ _ _ _ ⟨⟨trivial, 1, rfl⟩,
        fun _ => ⟨fun _ => ⟨0, ⟨by decide, by decide⟩, trivial⟩, by decide⟩⟩
      (.cons _ _ _ _ _ ⟨⟨⟨rfl, rfl⟩, 0, rfl⟩, trivial⟩
      (.cons _ _ _ _ _ ⟨⟨trivial, 1, rfl⟩,
        fun _ => ⟨fun _ => ⟨0, ⟨by decide, by decide⟩, trivial⟩, by decide⟩⟩
      (.cons _ _ _ _ _ ⟨⟨trivial, 2, rfl⟩,
        fun _ => ⟨fun _ => ⟨1, ⟨by decide, by decide⟩, ?_⟩, by decide⟩⟩ (.nil _))))), by decide⟩
    exact fun _ => ⟨by decide, by decide, by decide⟩
  rcases hrun with ⟨ap, l₁, l₂, l₃, l₄, l₅, hrun, hlen⟩
  have hb := buffer_bounded demoAppl ap _ demoAppl_start hrun
  exact ⟨ap, _, hrun, rfl, hlen, hb.1, fun op he hp => (hb.2 op he hp).2⟩

/-- A message whose length leads back to its own start. -/
def demoLoop (k : Nat) : BitVec 8 :=
  if k = 1 then 20 else if k = 4 then 0xff else if k = 5 then 0xf0 else 0

def demoOntop (k : Nat) : BitVec 8 := if k = 1 then 31 else 0

/-- A reader that asks for more than there is leaves a queue longer than the
    buffer, and a message whose length leads back keeps the next one from being
    written. -/
theorem buffer_underflow :
    (∃ ap l₁ l₂, Runs.Run ApStep demoAppl [l₁, l₂] ap ∧ apBuflen < ap.apLen.toNat) ∧
      ∃ ap l op, Runs.Run ApStep demoAppl [l] ap ∧ Enabled ap op ∧
        ∀ fuel, step fuel ap op = none := by
  constructor
  · exact ⟨_, (.write false false 16 demoRedraw none, _), (.read ⟨20, fun _ => ⟨0, false⟩⟩, _),
      .cons _ _ _ _ _ ⟨trivial, 1, rfl⟩ (.cons _ _ _ _ _ ⟨rfl, 0, rfl⟩ (.nil _)), by decide⟩
  · refine ⟨_, (.write false false 16 demoLoop none, _), .write false false 16 demoOntop none,
      .cons _ _ _ _ _ ⟨trivial, 1, rfl⟩ (.nil _), trivial, fun fuel => ?_⟩
    have hloop : ∀ fuel, scanLoop (append
        { demoAppl with
          mem := (append demoAppl 16 demoLoop).mem
          apLen := 16 } 16 demoOntop).mem 16 (msgAt 16) fuel 0 [] = none := by
      intro fuel
      induction fuel with
      | zero => rfl
      | succ n ih => exact ih
    exact congrArg (Option.map _) (congrArg (Option.map _) (congrArg (Option.map _) (hloop fuel)))

end Msg

end Aes

end MagiC
