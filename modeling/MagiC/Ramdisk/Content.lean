import MagiC.Lib.Runs
import MagiC.Ramdisk.Lookup
import MagiC.Ramdisk.Transfer

/-!
# A File is an Array of Bytes

Reading, writing and seeking in a file that is open for both.

`Content` relates the blocks of a file to an array: `st_size` is its length,
`st_blocks` is the number of blocks, and the array fits into them. More blocks
at the end (`extend`) do not change it. A write stores less than was asked for only
if a block it asked for was refused (`Refused`). Sums of a position and a number
of bytes have 32 bits. A write beyond the last block rounds such a sum up to blocks,
so it needs 4095 more than that.

## Main definitions

* `Rep`: A descriptor stands for such an array.

## Theorems

* `contents_flat`: All sequences of operations.
-/

namespace MagiC

namespace Ramdisk

open Outcome Paged

/-- Memory that is not allocated. -/
def Fresh (s : Ram) (m : Nat) : Prop :=
  m ≠ 0 ∧ s.files m = none ∧ s.tables m = none ∧ s.links m = none

/-- What `Kmalloc` returns was not allocated before. -/
def Honest (k : Kmalloc) : Prop := ∀ s m, k s = some m → Fresh s m

section

variable {s : Ram} {p : Entry} {d e : Dirent}

theorem denotes_putAt (hd : Denotes s p d) (he : e.faddr ≠ .null) : Denotes (putAt s p e) p e := by
  cases p with
  | root => rfl
  | slot t i =>
    refine ⟨?_, hd.2.1, he⟩
    change entry (put s t i e) t i = _
    rw [entry_put hd.1, if_pos ⟨rfl, rfl⟩]

theorem putAt_again (f : Dirent) (files files' : Nat → Option Fileblock) :
    { putAt { putAt s p e with files := files } p f with files := files' } =
      { putAt s p f with files := files' } := by
  cases p with
  | root => rfl
  | slot t i =>
    have h := congrArg Ram.tables (put_put (s := s) (t := t) (i := i) (e := e) (f := f))
    simp only [put] at h
    simp only [putAt, put, h]

theorem putAt_self (hd : Denotes s p d) : putAt s p d = s := by
  cases p with
  | root =>
    have h : s.rootDe = d := hd
    rw [← h]
    rfl
  | slot t i =>
    have h := hd.1
    unfold entry at h
    cases hs : s.tables t with
    | none => simp [hs] at h
    | some es =>
      simp only [hs, Option.bind_some] at h
      rcases List.getElem?_eq_some_iff.mp h with ⟨hi, rfl⟩
      simp only [putAt, put, hs, Option.map_some, List.set_getElem_self]
      rw [← hs, Function.update_eq_self]

theorem putAt_fd : (putAt s p e).fd = s.fd := by cases p <;> rfl

theorem putAt_files : (putAt s p e).files = s.files := by cases p <;> rfl

theorem denotes_congr {s' : Ram} (ht : s'.tables = s.tables) (hr : s'.rootDe = s.rootDe)
    (hd : Denotes s p d) : Denotes s' p d := by
  cases p with
  | root => exact hr.trans hd
  | slot t i =>
    refine ⟨?_, hd.2⟩
    have h := hd.1
    unfold entry at h ⊢
    rw [ht]
    exact h

end

/-! ## More blocks -/

def withBlocks (e : Dirent) (n : Nat) : Dirent := { e with xattr := { e.xattr with blocks := n } }

theorem chain_snoc {files : Nat → Option Fileblock} {a last m : Nat} {bs : List Nat} {b : Fileblock}
    (data : Nat → BitVec 8) (h : Chain files a (bs ++ [last])) (hb : files last = some b)
    (hm : m ≠ 0) (hfree : files m = none) :
    Chain (Function.update (Function.update files last (some { b with next := m })) m
      (some ⟨data, 0⟩)) a (bs ++ [last, m]) ∧
    ∀ q < 4096 * (bs ++ [last]).length, flat (Function.update (Function.update files last
      (some { b with next := m })) m (some ⟨data, 0⟩)) (bs ++ [last, m]) q =
        flat files (bs ++ [last]) q := by
  have hmem : ∀ x ∈ bs ++ [last], x ≠ m := fun x hx hxm => h.2 x hx (hxm ▸ hfree)
  have hnd := Chains.linked_nodup h.1
  have hlast : ∀ x ∈ bs, x ≠ last := fun x hx hxl =>
    (List.nodup_append.mp hnd).2.2 x hx last (List.mem_singleton_self last) hxl
  have hlm := hmem last (by simp)
  have hbs : ∀ x ∈ bs, x ≠ m := fun x hx => hmem x (List.mem_append_left _ hx)
  refine ⟨⟨?_, fun x hx => ?_⟩, fun q hq => ?_⟩
  · refine Chains.linked_snoc last m h.1 hm ?_ ?_ fun z hz => ?_
    · simp [nextOf, hlm]
    · simp [nextOf]
    · simp [nextOf, hbs z hz, hlast z hz]
  · by_cases hxm : x = m
    · simp [hxm]
    · by_cases hxl : x = last
      · simp [hxl, hlm]
      · rw [Function.update_of_ne hxm, Function.update_of_ne hxl]
        refine h.2 x ?_
        simp only [List.mem_append, List.mem_cons, List.not_mem_nil, or_false] at hx ⊢
        rcases hx with hx | hx | hx
        · exact Or.inl hx
        · exact Or.inr hx
        · exact absurd hx hxm
  · unfold flat
    rw [show bs ++ [last, m] = (bs ++ [last]) ++ [m] by simp, List.map_append,
      get_append 4096 _ _ q (by simpa using hq)]
    congr 1
    refine List.map_congr_left fun x hx => ?_
    unfold pageOf
    rw [Function.update_of_ne (hmem x hx)]
    by_cases hxl : x = last
    · rw [hxl, Function.update_self, hb]
    · rw [Function.update_of_ne hxl]

/-- The file with the entry `p` gets the block `m`, behind its last one. -/
def Appends (env : Env) (p : Entry) (m : Nat) (s s' : Ram) : Prop :=
  ∃ e init last b, Denotes s p e ∧ Chain s.files e.faddr.address (init ++ [last]) ∧
    s.files last = some b ∧
      s' = { putAt s p (withBlocks e (e.xattr.blocks + 1)) with
        files := Function.update (Function.update s.files last (some { b with next := m })) m
          (some ⟨env.junk m, 0⟩) }

/-- So many blocks are given to a file one after the other, and the next one is refused. -/
inductive Refused (env : Env) (k : Kmalloc) (p : Entry) : Ram → Nat → Prop where
  | now {s : Ram} (h : k s = none) : Refused env k p s 0
  | later {s s' : Ram} {m n : Nat} (hm : k s = some m) (h : Appends env p m s s')
      (hr : Refused env k p s' n) : Refused env k p s (n + 1)

/-- What `extend` has done. -/
structure Extended (env : Env) (k : Kmalloc) (s : Ram) (p : Entry) (e : Dirent) (a : Nat)
    (bs : List Nat) (n : Nat) (new : List Nat) (files : Nat → Option Fileblock) : Prop where
  some : new.length ≤ n
  all : new.length = n ∨ Refused env k p s new.length
  chain : Chain files a (bs ++ new)
  bytes : ∀ q < 4096 * bs.length, flat files (bs ++ new) q = flat s.files bs q
  other : ∀ x, x ∉ bs → s.files x ≠ none → files x = s.files x

theorem extend_spec (env : Env) (k : Kmalloc) (hk : Honest k) (p : Entry) (n : Nat) :
    ∀ (s : Ram) (e : Dirent) (last : Nat) (bs : List Nat), Denotes s p e → e.faddr ≠ .null →
    Chain s.files e.faddr.address (bs ++ [last]) → e.xattr.blocks = (bs ++ [last]).length →
    4096 * ((bs ++ [last]).length + n) < 2 ^ 31 →
    ∃ new files, extend env k n s p last (4096 * (bs ++ [last]).length : Nat) =
        .ok ((4096 * (bs ++ [last] ++ new).length : Nat),
          { putAt s p (withBlocks e (bs ++ [last] ++ new).length) with files := files }) ∧
      Extended env k s p e e.faddr.address (bs ++ [last]) n new files := by
  induction n with
  | zero =>
    intro s e last bs hd _ hc hblocks _
    refine ⟨[], s.files, ?_, Nat.le_refl _, Or.inl rfl, by simpa using hc, fun q _ => by simp,
      fun _ _ _ => rfl⟩
    unfold extend
    rw [List.append_nil, ← hblocks]
    have he : withBlocks e e.xattr.blocks = e := rfl
    rw [he, putAt_self hd]
  | succ n ih =>
    intro s e last bs hd hfaddr hc hblocks hsmall
    unfold extend
    cases hks : k s with
    | none =>
      refine ⟨[], s.files, ?_, Nat.zero_le _, Or.inr (.now hks), by simpa using hc,
        fun q _ => by simp, fun _ _ _ => rfl⟩
      dsimp only
      rw [List.append_nil, ← hblocks]
      have he : withBlocks e e.xattr.blocks = e := rfl
      rw [he, putAt_self hd]
    | some m =>
      have hm := hk s m hks
      have hlast : last ≠ 0 := fun hz => hc.1.2 (hz ▸ by simp)
      cases hb : s.files last with
      | none => exact absurd hb (hc.2 last (by simp))
      | some b =>
      dsimp only
      rw [getEntry_eq hd, ok_bind, setEntry_eq hd, ok_bind]
      rw [putAt_files, getBlock_eq hlast hb, ok_bind]
      rcases chain_snoc (env.junk m) hc hb hm.1 hm.2.1 with ⟨hc', hbytes⟩
      have happends : Appends env p m s _ := ⟨e, bs, last, b, hd, hc, hb, rfl⟩
      have happ : bs ++ [last, m] = bs ++ [last] ++ [m] := by simp
      rw [happ] at hc' hbytes
      generalize hfiles : Function.update (Function.update s.files last
        (some { b with next := m })) m (some ⟨env.junk m, 0⟩) = files at hc' hbytes happends
      have hlen : (bs ++ [last] ++ [m]).length = (bs ++ [last]).length + 1 := by simp
      -- The entry counts the block at once.
      have hd' : Denotes { putAt s p (withBlocks e (e.xattr.blocks + 1)) with files := files } p
          (withBlocks e (e.xattr.blocks + 1)) := denotes_congr rfl rfl (denotes_putAt hd hfaddr)
      have hdef : defaultfile = 4096 := rfl
      have hlong : long32 ((4096 * (bs ++ [last]).length : Nat) + defaultfile) =
          (4096 * (bs ++ [last] ++ [m]).length : Nat) := by
        rw [long32_eq _ (by omega) (by omega)]
        omega
      rcases ih _ (withBlocks e (e.xattr.blocks + 1)) m (bs ++ [last]) hd' hfaddr hc'
        (by rw [hlen, ← hblocks]; rfl) (by omega) with ⟨new, files', hext, hx⟩
      refine ⟨m :: new, files', ?_, ?_⟩
      · rw [putAt_again] at hext
        have hcons : bs ++ [last] ++ m :: new = bs ++ [last] ++ [m] ++ new := by simp
        rw [hcons, hlong]
        exact hext
      · refine ⟨by have := hx.some; simpa using this, ?_, by simpa [withBlocks] using hx.chain, ?_,
          ?_⟩
        · rw [List.length_cons]
          exact hx.all.imp (congrArg (· + 1)) (Refused.later hks happends)
        · intro q hq
          have h1 := hx.bytes q (by omega)
          simp only [List.append_assoc, List.singleton_append] at h1 hbytes ⊢
          exact h1.trans (hbytes q (by simpa using hq))
        · intro x hx' hne
          have hxm : x ≠ m := fun hc => hne (hc ▸ hm.2.1)
          have hxl : x ≠ last := fun hc => hx' (by simp [hc])
          have hf : files x = s.files x := by
            rw [← hfiles, Function.update_of_ne hxm, Function.update_of_ne hxl]
          rw [← hf]
          refine hx.other x ?_ (by change files x ≠ none; rw [hf]; exact hne)
          simp only [List.mem_append, List.mem_singleton, not_or] at hx' ⊢
          exact ⟨hx', hxm⟩

/-! ## The bytes of a file -/

/-- The bytes of a file, which has the blocks `bs`. -/
structure Content (s : Ram) (p : Entry) (e : Dirent) (bs : List Nat)
    (l : List (BitVec 8)) : Prop where
  denotes : Denotes s p e
  file : e.xattr.fmt = .file
  chain : Chain s.files e.faddr.address bs
  addr : e.faddr ≠ .null
  nonempty : bs ≠ []
  blocks : e.xattr.blocks = bs.length
  small : 4096 * bs.length < 2 ^ 31
  size : e.xattr.size = l.length
  fits : l.length ≤ 4096 * bs.length
  bytes : l = slice (flat s.files bs) 0 l.length

/-- An array of bytes with a position, and the number of blocks. -/
structure Flat where
  bytes : List (BitVec 8)
  pos : Nat
  blocks : Nat

/-- The descriptor `fd` of the file with the entry `p` stands for an array. -/
structure Rep (p : Entry) (s : Ram) (fd : Nat) (f : Flat) : Prop where
  content : ∃ e bs, Content s p e bs f.bytes ∧ f.blocks = bs.length
  file : (s.fd fd).file = some p
  dmd : (s.fd fd).dmd = true
  refcnt : (s.fd fd).refcnt = 1
  rperm : (s.fd fd).mode.rperm = true
  wperm : (s.fd fd).mode.wperm = true
  fpos : (s.fd fd).fpos = f.pos
  pos : f.pos ≤ f.bytes.length

section

variable {s : Ram} {p : Entry} {e : Dirent} {bs : List Nat} {l : List (BitVec 8)} {fd : Nat}
  {f : Flat}

theorem Content.slice (h : Content s p e bs l) (pos n : Nat) (hn : pos + n ≤ l.length) :
    (l.drop pos).take n = Paged.slice (flat s.files bs) pos n := by
  refine List.ext_getElem? fun i => ?_
  rw [List.getElem?_take]
  split
  · rename_i hi
    rw [List.getElem?_drop, h.bytes, slice_get _ _ _ _ (by omega), slice_get _ _ _ _ hi,
      Nat.zero_add]
  · rename_i hi
    rw [eq_comm, List.getElem?_eq_none_iff, slice_length]
    omega

theorem Content.get (h : Content s p e bs l) (q : Nat) (hq : q < l.length) :
    l[q]? = some (flat s.files bs q) := by
  rw [h.bytes, slice_get _ _ _ _ hq, Nat.zero_add]

theorem bytes_of_get (g : Nat → BitVec 8) (hg : ∀ q < l.length, l[q]? = some (g q)) :
    l = Paged.slice g 0 l.length := by
  refine List.ext_getElem? fun i => ?_
  by_cases hi : i < l.length
  · rw [hg i hi, slice_get _ _ _ _ hi, Nat.zero_add]
  · rw [List.getElem?_eq_none (by omega), eq_comm, List.getElem?_eq_none_iff, slice_length]
    omega

theorem Rep.opened (h : Rep p s fd f) (hc : Content s p e bs l) : Opened s fd p e :=
  ⟨h.file, hc.denotes⟩

theorem Rep.checkFd (h : Rep p s fd f) (hc : Content s p e bs l) :
    Ramdisk.checkFd s fd = .ok none := by
  unfold Ramdisk.checkFd
  rw [if_neg (by rw [h.dmd]; exact Bool.noConfusion), ddEntry_eq (h.opened hc), ok_bind,
    if_pos hc.file]

/-- Only the position of the descriptor changes. -/
def atPos (s : Ram) (fd : Nat) (pos : Int) : Ram :=
  { s with fd := Function.update s.fd fd { s.fd fd with fpos := pos } }

theorem Rep.atPos (h : Rep p s fd f) (n : Nat) (hn : n ≤ f.bytes.length) :
    Rep p (atPos s fd n) fd { f with pos := n } := by
  rcases h.content with ⟨e, bs, hc, hb⟩
  have hd : Denotes (Ramdisk.atPos s fd n) p e := by
    have h := hc.denotes
    cases p <;> exact h
  refine ⟨⟨e, bs, { hc with denotes := hd }, hb⟩, ?_, ?_, ?_, ?_, ?_, ?_, hn⟩
  · simpa [Ramdisk.atPos] using h.file
  · simpa [Ramdisk.atPos] using h.dmd
  · simpa [Ramdisk.atPos] using h.refcnt
  · simpa [Ramdisk.atPos] using h.rperm
  · simpa [Ramdisk.atPos] using h.wperm
  · simp [Ramdisk.atPos]

/-! ## Seeking and reading -/

/-- Where `seek` counts from. -/
def seekBase (f : Flat) (mode : Int) : Option Nat :=
  if mode = 0 then some 0 else if mode = 1 then some f.pos
  else if mode = 2 then some f.bytes.length else none

/-- What `seek` does. -/
def Seeks (f : Flat) (offset mode : Int) (r : Reply) (f' : Flat) : Prop :=
  match seekBase f mode with
  | none => r = .done f.pos ∧ f' = f
  | some b =>
    if 0 ≤ b + offset ∧ b + offset ≤ f.bytes.length then
      r = .done (b + offset) ∧ f' = { f with pos := (b + offset).toNat }
    else r = .failed .erange ∧ f' = f

theorem seek_spec (h : Rep p s fd f) (offset mode : Int) (hlo : -2 ^ 31 ≤ offset)
    (hhi : offset < 2 ^ 31) :
    ∃ r s' f', seek s fd offset mode = .ok (r, s') ∧ Seeks f offset mode r f' ∧ Rep p s' fd f' := by
  rcases h.content with ⟨e, bs, hc, hb⟩
  have hfits := hc.fits
  have hsmall := hc.small
  have hpos := h.pos
  unfold seek Seeks
  rw [h.checkFd hc, ok_bind]
  dsimp only
  rw [ddEntry_eq (h.opened hc), ok_bind]
  have hbase : (if mode = 0 then some (0 : Int) else if mode = 1 then some (s.fd fd).fpos
      else if mode = 2 then some e.xattr.size else none) = (seekBase f mode).map Int.ofNat := by
    unfold seekBase
    rw [h.fpos, hc.size]
    split
    · rfl
    · split
      · rfl
      · split <;> rfl
  rw [hbase]
  cases hsb : seekBase f mode with
  | none =>
    refine ⟨_, _, f, rfl, ⟨?_, rfl⟩, h⟩
    rw [h.fpos]
  | some b =>
    have hble : b ≤ f.bytes.length := by
      unfold seekBase at hsb
      split at hsb
      · have hb0 := Option.some.inj hsb
        omega
      · split at hsb
        · have hb0 := Option.some.inj hsb
          omega
        · split at hsb
          · have hb0 := Option.some.inj hsb
            omega
          · cases hsb
    simp only [Option.map_some, Int.ofNat_eq_natCast]
    by_cases hin : 0 ≤ (b : Int) + offset ∧ (b : Int) + offset ≤ f.bytes.length
    · refine ⟨.done (b + offset), Ramdisk.atPos s fd (b + offset),
        { f with pos := (b + offset).toNat }, ?_, ?_, ?_⟩
      · rw [long32_eq _ (by omega) (by omega), hc.size, if_neg (by omega)]
        rfl
      · rw [if_pos hin]
        exact ⟨rfl, rfl⟩
      have hn : (((b + offset).toNat : Nat) : Int) = b + offset := Int.toNat_of_nonneg hin.1
      have hrep := h.atPos (b + offset).toNat (by omega)
      rw [hn] at hrep
      exact hrep
    · -- A sum that does not fit becomes negative.
      have hout : long32 (b + offset) < 0 ∨ e.xattr.size < long32 (b + offset) := by
        rw [hc.size]
        by_cases hbig : (b : Int) + offset < 2 ^ 31
        · rw [long32_eq _ (by omega) hbig]
          omega
        · exact Or.inl (long32_neg _ (by omega) (by omega))
      refine ⟨.failed .erange, s, f, by rw [if_pos hout], ?_, h⟩
      rw [if_neg hin]
      exact ⟨rfl, rfl⟩

theorem read_spec (h : Rep p s fd f) (count : Nat) (hsum : f.pos + count < 2 ^ 31) :
    ∃ s', read s fd count = .ok (.done (min count (f.bytes.length - f.pos) : Nat),
        (f.bytes.drop f.pos).take count, s') ∧
      Rep p s' fd { f with pos := f.pos + min count (f.bytes.length - f.pos) } := by
  rcases h.content with ⟨e, bs, hc, hb⟩
  have hfits := hc.fits
  have hsmall := hc.small
  have hpos := h.pos
  have hdef : defaultfile = 4096 := rfl
  generalize hn : min count (f.bytes.length - f.pos) = n
  unfold read
  rw [h.checkFd hc, ok_bind]
  dsimp only
  rw [if_neg (by rw [h.rperm]; exact fun hx => Bool.noConfusion hx.1), ddEntry_eq (h.opened hc),
    ok_bind, h.fpos, hc.size]
  -- The number of bytes that are there.
  have hcount : (if ((f.bytes.length : Nat) : Int) < long32 ((f.pos : Nat) + (count : Nat)) then
      long32 ((f.bytes.length : Nat) - (f.pos : Nat)) else (count : Int)) = (n : Nat) := by
    rw [long32_eq _ (by omega) (by omega), long32_eq _ (by omega) (by omega)]
    split <;> omega
  rw [hcount]
  rcases readWalk_spec bs f.pos hc.small (by omega) (f.pos + 1) e.faddr.address [] bs rfl hc.chain
    hc.nonempty (by simp) (by simp) with ⟨a, pos, pre, post, hw, hs⟩
  have hzero : ((4096 * ([] : List Nat).length : Nat) : Int) = 0 := by simp
  rw [hzero] at hw
  have hfuel : ((f.pos : Nat) : Int).toNat + 1 = f.pos + 1 := rfl
  rw [hfuel, hw, ok_bind]
  dsimp only
  have hlow := hs.low
  have hhigh := hs.high
  have hstart := hs.start
  have hlens := congrArg List.length hs.blocks
  rw [List.length_append] at hlens
  have hoff : ((f.pos : Nat) : Int) - (pos : Nat) = ((f.pos - pos : Nat) : Int) := by omega
  have hread : defaultfile - ((f.pos - pos : Nat) : Int) =
    ((4096 - (f.pos - pos) : Nat) : Int) := by
    omega
  rw [hoff, hread, readLoop_spec (((n : Nat) : Int).toNat + 2) a (f.pos - pos) n
    (4096 - (f.pos - pos)) post [] hs.chain (by omega) (by omega)
    (by split <;> simp), ok_bind]
  -- The blocks before the first one are left out.
  have hslice : Paged.slice (flat s.files post) (f.pos - pos) n =
    (f.bytes.drop f.pos).take count := by
    rw [List.take_eq_take_min, List.length_drop, hn, hc.slice f.pos n (by omega), hs.blocks]
    refine slice_congr fun i hi => ?_
    rw [show f.pos + i = 4096 * pre.length + (f.pos - pos + i) by omega, flat_behind]
  have hlen : ((f.bytes.drop f.pos).take count).length = n := by
    rw [List.length_take, List.length_drop, hn]
  rw [List.nil_append, hslice, hlen, long32_eq _ (by omega) (by omega)]
  refine ⟨_, rfl, ?_⟩
  have hrep := h.atPos (f.pos + n) (by omega)
  rw [Int.natCast_add] at hrep
  exact hrep

/-! ## Writing -/

theorem Content.split (h : Content s p e bs l) : ∃ init last, bs = init ++ [last] ∧
    ∀ a, bs.getLastD a = last := by
  rcases List.eq_nil_or_concat bs with hnil | ⟨init, last, hbs⟩
  · exact absurd hnil h.nonempty
  · exact ⟨init, last, by simpa using hbs, fun a => by simp [hbs]⟩

theorem makeRoom_spec (env : Env) (k : Kmalloc) (hk : Honest k) (hc : Content s p e bs l)
    (pos count : Nat) (hpos : pos ≤ l.length) (a : Nat)
    (hsum : pos + count ≤ 4096 * bs.length ∨ pos + count + 4095 < 2 ^ 31) :
    ∃ new n files, makeRoom env k s p e (bs.getLastD a) pos count =
        .ok ((min count (4096 * (bs ++ new).length - pos) : Nat),
          { putAt s p (withBlocks e (bs ++ new).length) with files := files }) ∧
      Extended env k s p e e.faddr.address bs n new files ∧
      4096 * (bs ++ new).length < 2 ^ 31 ∧
      (count ≤ 4096 * (bs ++ new).length - pos ∨ Refused env k p s new.length) := by
  have hfits := hc.fits
  have hsmall := hc.small
  have hdef : defaultfile = 4096 := rfl
  rcases hc.split with ⟨init, last, hbs, hlast⟩
  have hmax : long32 (e.xattr.blocks * defaultfile) = (4096 * bs.length : Nat) := by
    rw [hc.blocks, hdef, long32_eq _ (by omega) (by omega)]
    omega
  unfold makeRoom
  dsimp only
  rw [hmax, long32_eq ((pos : Int) + count) (by omega) (by omega)]
  by_cases hroom : pos + count ≤ 4096 * bs.length
  · rw [if_neg (by omega)]
    refine ⟨[], 0, s.files, ?_,
      ⟨Nat.le_refl 0, Or.inl rfl, by simpa using hc.chain, fun q _ => by simp, fun _ _ _ => rfl⟩,
      by simpa using hsmall, Or.inl (by simp; omega)⟩
    have he : withBlocks e bs.length = e := by
      rw [← hc.blocks]
      rfl
    rw [List.append_nil, he, putAt_self hc.denotes,
      show min count (4096 * bs.length - pos) = count by omega]
  · rw [if_pos (by omega)]
    have hover := hsum.resolve_left hroom
    -- The number of blocks that are missing.
    have hblocks : (Int.tdiv (long32 ((pos : Int) + count + defaultfile - 1)) defaultfile -
        (e.xattr.blocks : Int)).toNat = (pos + count + 4095) / 4096 - bs.length := by
      rw [long32_eq _ (by omega) (by omega), hc.blocks,
        show (pos : Int) + count + defaultfile - 1 = ((pos + count + 4095 : Nat) : Int) by omega,
          hdef,
        Int.tdiv_eq_ediv_of_nonneg (by omega)]
      omega
    rw [hblocks, hlast, hbs]
    rw [hbs] at hsmall hfits hroom
    have hext := extend_spec env k hk p ((pos + count + 4095) / 4096 - (init ++ [last]).length) s e
      last init hc.denotes hc.addr (hbs ▸ hc.chain) (hbs ▸ hc.blocks) (by omega)
    rcases hext with ⟨new, files, hx, hE⟩
    have hsome := hE.some
    have hlen : (init ++ [last] ++ new).length = (init ++ [last]).length + new.length :=
      List.length_append
    obtain ⟨len, hl⟩ : ∃ len, len = (init ++ [last] ++ new).length := ⟨_, rfl⟩
    rw [← hl] at hlen hx
    have hcount : (if ((4096 * len : Nat) : Int) < (pos : Int) + count then
        long32 ((4096 * len : Nat) - (pos : Int)) else (count : Int)) =
          (min count (4096 * len - pos) : Nat) := by
      rw [long32_eq _ (by omega) (by omega)]
      split <;> omega
    rw [hx, ok_bind]
    dsimp only
    rw [hcount]
    refine ⟨new, _, files, by rw [← hl], hE, by omega, ?_⟩
    · refine hE.all.imp_left fun h => ?_
      omega

/-- What has been written, byte by byte. -/
def written (files : Nat → Option Fileblock) (bs : List Nat) (pos n : Nat) (buf : Nat → BitVec 8)
    (q : Nat) : BitVec 8 :=
  if pos ≤ q ∧ q < pos + n then buf (q - pos) else flat files bs q

theorem written_behind (files files' : Nat → Option Fileblock) (pre post : List Nat) (pos n : Nat)
    (buf : Nat → BitVec 8) (hpos : 4096 * pre.length ≤ pos) (hs : SameLinks files files' post)
    (hnd : (pre ++ post).Nodup)
    (h : ∀ q, flat files' post q = written files post (pos - 4096 * pre.length) n buf q) (q : Nat) :
    flat files' (pre ++ post) q = written files (pre ++ post) pos n buf q := by
  unfold written at *
  by_cases hq : q < 4096 * pre.length
  · rw [if_neg (by omega), flat_front pre post q hq, flat_front pre post q hq]
    refine flat_congr (fun x hx => hs.other x fun hc => ?_) q
    exact (List.nodup_append.mp hnd).2.2 x hx x hc rfl
  · rcases Nat.exists_eq_add_of_le (Nat.not_lt.mp hq) with ⟨r, rfl⟩
    rw [flat_behind, flat_behind, h]
    by_cases hin : pos - 4096 * pre.length ≤ r ∧ r < pos - 4096 * pre.length + n
    · rw [if_pos hin, if_pos (by omega)]
      congr 1
      omega
    · rw [if_neg hin, if_neg (by omega)]

theorem Rep.written {s3 : Ram} {e2 e3 : Dirent} {bs' : List Nat} {n : Nat} (h : Rep p s fd f)
    (hc : Content s p e bs f.bytes) (buf : Nat → BitVec 8) (hd : Denotes s3 p e2)
    (hfd : s3.fd fd = { s.fd fd with fpos := ((f.pos + n : Nat) : Int) })
    (hfaddr : e3.faddr = e.faddr) (hfmt : e3.xattr.fmt = e.xattr.fmt)
    (hblocks : e3.xattr.blocks = bs'.length)
    (hsize : e3.xattr.size = (max f.bytes.length (f.pos + n) : Nat))
    (hchain : Chain s3.files e.faddr.address bs') (hne : bs' ≠ [])
    (hsmall : 4096 * bs'.length < 2 ^ 31)
    (hfit : max f.bytes.length (f.pos + n) ≤ 4096 * bs'.length)
    (hflat : ∀ q < max f.bytes.length (f.pos + n),
      flat s3.files bs' q = Ramdisk.written s.files bs f.pos n buf q) :
    Rep p (putAt s3 p e3) fd ⟨overwrite f.bytes f.pos (Paged.slice buf 0 n), f.pos + n,
      bs'.length⟩ := by
  have hpos := h.pos
  have hlen : (overwrite f.bytes f.pos (Paged.slice buf 0 n)).length =
      max f.bytes.length (f.pos + n) := by
    rw [overwrite_length _ _ _ hpos, slice_length]
  have haddr : e3.faddr ≠ .null := by
    rw [hfaddr]
    exact hc.addr
  refine ⟨⟨e3, bs', ?_, rfl⟩, ?_, ?_, ?_, ?_, ?_, ?_, ?_⟩
  · -- Every byte is an old one or one that was written.
    refine ⟨denotes_putAt hd haddr, hfmt.trans hc.file, ?_, haddr, hne, hblocks, hsmall, ?_, ?_,
      bytes_of_get _ fun q hq => ?_⟩
    · rw [putAt_files, hfaddr]
      exact hchain
    · rw [hlen, hsize]
    · rw [hlen]
      exact hfit
    · rw [hlen] at hq
      rw [putAt_files, overwrite_get _ _ _ _ hpos, slice_length, hflat q hq]
      unfold Ramdisk.written
      by_cases hin : f.pos ≤ q ∧ q < f.pos + n
      · rw [if_pos hin, if_pos hin, slice_get _ _ _ _ (by omega), Nat.zero_add]
      · rw [if_neg hin, if_neg hin, hc.get q (by omega)]
  · rw [putAt_fd, hfd]
    exact h.file
  · rw [putAt_fd, hfd]
    exact h.dmd
  · rw [putAt_fd, hfd]
    exact h.refcnt
  · rw [putAt_fd, hfd]
    exact h.rperm
  · rw [putAt_fd, hfd]
    exact h.wperm
  · rw [putAt_fd, hfd]
  · rw [hlen]
    exact Nat.le_max_right _ _

theorem write_spec (env : Env) (k : Kmalloc) (hk : Honest k) (h : Rep p s fd f) (count : Nat)
    (buf : Nat → BitVec 8)
    (hsum : f.pos + count ≤ 4096 * f.blocks ∨ f.pos + count + 4095 < 2 ^ 31) :
    ∃ n blocks s', write env k s fd count buf = .ok (.done (n : Nat), s') ∧
      Rep p s' fd ⟨overwrite f.bytes f.pos (Paged.slice buf 0 n), f.pos + n, blocks⟩ ∧
      f.blocks ≤ blocks ∧ n = min count (4096 * blocks - f.pos) ∧
      (n = count ∨ Refused env k p s (blocks - f.blocks)) := by
  rcases h.content with ⟨e, bs, hc, hb⟩
  have hfits := hc.fits
  have hpos := h.pos
  have hdef : defaultfile = 4096 := rfl
  unfold write
  rw [h.checkFd hc, ok_bind]
  dsimp only
  rw [if_neg (by rw [h.wperm]; exact Bool.noConfusion), fileOf_eq (h.opened hc), ok_bind,
    getEntry_eq hc.denotes, ok_bind, h.fpos]
  -- The first block of the transfer and the last one of the file.
  rcases writeWalk_spec bs f.pos hc.small (by omega) (e.xattr.blocks + 2) e.faddr.address
    0 [] bs rfl hc.chain hc.nonempty (by simp) (by rw [hc.blocks]; omega) with
    ⟨a, pos, pre, post, hw, hs⟩
  have hzero : ((4096 * ([] : List Nat).length : Nat) : Int) = 0 := by simp
  rw [hzero] at hw
  rw [hw, ok_bind]
  dsimp only
  rw [hb] at hsum
  rcases makeRoom_spec env k hk hc f.pos count hpos 0 hsum with
    ⟨new, m, files, hroom, hE, hsmall', hall⟩
  rw [hroom, ok_bind]
  dsimp only
  obtain ⟨n, hn⟩ : ∃ n, n = min count (4096 * (bs ++ new).length - f.pos) := ⟨_, rfl⟩
  rw [← hn]
  have hlow := hs.low
  have hhigh := hs.high
  have hstart := hs.start
  have hlen : (bs ++ new).length = bs.length + new.length := List.length_append
  have hlens := congrArg List.length hs.blocks
  rw [List.length_append] at hlens
  -- The blocks from the first one of the transfer on, with the new ones.
  have happ : bs ++ new = pre ++ (post ++ new) := by rw [hs.blocks, List.append_assoc]
  have hchain : Chain files a (post ++ new) := by
    rcases chain_head hs.chain hs.nonempty with ⟨_, m', hpost, _⟩
    have hx := hE.chain
    rw [happ, hpost, List.cons_append] at hx
    rw [hpost, List.cons_append]
    exact chain_behind pre (m' ++ new) a hx
  have hlen2 : (post ++ new).length = post.length + new.length := List.length_append
  have hoff : ((f.pos : Nat) : Int) - (pos : Nat) = ((f.pos - pos : Nat) : Int) := by omega
  have hwrite : defaultfile - ((f.pos - pos : Nat) : Int) =
    ((4096 - (f.pos - pos) : Nat) : Int) := by
    omega
  rcases writeLoop_spec buf (((n : Nat) : Int).toNat + 2) files a (f.pos - pos) n
    (4096 - (f.pos - pos)) 0 (post ++ new) hchain (by omega) (by omega) (by split <;> simp) with
    ⟨files', hloop, hsame, hflat⟩
  rw [hoff, hwrite, hloop, ok_bind]
  dsimp only
  rw [Nat.zero_add, long32_eq _ (by omega) (by omega), putAt_fd]
  -- The entry gets the new size.
  obtain ⟨e2, he2⟩ : ∃ e2, e2 = withBlocks e (bs ++ new).length := ⟨_, rfl⟩
  have hf2 : e2.faddr = e.faddr := by rw [he2]; rfl
  rw [← he2]
  have hd2 : Denotes (putAt s p e2) p e2 := denotes_putAt hc.denotes (by rw [hf2]; exact hc.addr)
  have hd3 : Denotes { putAt s p e2 with
      files := files'
      fd :=
        Function.update s.fd fd { s.fd fd with fpos := ((f.pos : Nat) : Int) + (n : Nat) } } p e2 :=
    denotes_congr rfl rfl hd2
  rw [getEntry_eq hd3, ok_bind, setEntry_eq hd3, ok_bind]
  have hsize : e2.xattr.size = f.bytes.length := by rw [he2]; exact hc.size
  rw [hsize]
  have hmax : (if ((f.bytes.length : Nat) : Int) < ((f.pos : Nat) : Int) + (n : Nat) then
      ((f.pos : Nat) : Int) + (n : Nat) else ((f.bytes.length : Nat) : Int)) =
        (max f.bytes.length (f.pos + n) : Nat) := by
    split <;> omega
  rw [hmax]
  refine ⟨n, (bs ++ new).length, _, rfl, h.written hc buf hd3 ?_ hf2 ?_ ?_ rfl ?_ ?_ hsmall' ?_ ?_,
    ?_, hn, ?_⟩
  · simp
  · rw [he2]
    rfl
  · rw [he2]
    rfl
  · exact hsame.chain hE.chain
  · exact fun hnil => hc.nonempty (List.append_eq_nil_iff.mp hnil).1
  · omega
  · intro q hq
    dsimp only
    rw [happ, written_behind files files' pre (post ++ new) f.pos n buf (by omega) hsame
      (happ ▸ Chains.linked_nodup hE.chain.1) (fun r => by
        rw [hflat r, written, hstart.symm]
        simp only [Nat.zero_add]) q]
    unfold written
    by_cases hin : f.pos ≤ q ∧ q < f.pos + n
    · rw [if_pos hin, if_pos hin]
    · rw [if_neg hin, if_neg hin, ← happ, hE.bytes q (by omega)]
  · omega
  · rw [hlen, hb, Nat.add_sub_cancel_left]
    refine hall.imp_left fun hle => ?_
    omega

/-! ## Opening again -/

theorem truncate_spec (hc : Content s p e bs l) :
    ∃ s' e' a, truncate s p = .ok s' ∧ Content s' p e' [a] [] ∧ s'.fd = s.fd := by
  rcases chain_head hc.chain hc.nonempty with ⟨b, m, hbs, ha, hb, hm, ham⟩
  have haddr : e.faddr = .mem e.faddr.address := by
    cases hf : e.faddr with
    | null => exact absurd hf hc.addr
    | root =>
      rw [hf] at ha
      exact absurd rfl ha
    | mem x => rfl
  generalize e.faddr.address = a at ha hb ham hbs haddr
  obtain ⟨files1, h1⟩ : ∃ f, f = Function.update s.files a (some { b with next := 0 }) := ⟨_, rfl⟩
  have hm1 : Chain files1 b.next m :=
    chain_congr hm fun x hx => by rw [h1, Function.update_of_ne fun hxa : x = a => ham (hxa ▸ hx)]
  have hlen : e.xattr.blocks = m.length + 1 := by rw [hc.blocks, hbs]; rfl
  rcases freeChain_spec (e.xattr.blocks + 1) files1 b.next m hm1 (by omega) with
    ⟨files2, hfree, _, hother⟩
  unfold truncate
  rw [getEntry_eq hc.denotes, ok_bind, haddr]
  simp only [hb]
  rw [← h1, hfree, ok_bind]
  have hd : Denotes { s with files := files2 } p e := denotes_congr rfl rfl hc.denotes
  rw [setEntry_eq hd]
  have ha2 : files2 a = some { b with next := 0 } := by rw [hother a ham, h1, Function.update_self]
  refine ⟨_, _, a, rfl, ⟨denotes_putAt hd ?_, hc.file, ?_, ?_, List.cons_ne_nil _ _, rfl, ?_, rfl,
    Nat.zero_le _, rfl⟩, putAt_fd⟩
  · exact Faddr.noConfusion
  · rw [putAt_files]
    refine ⟨(Chains.linked_cons a).mpr ⟨rfl, ha, ?_⟩, fun x hx => ?_⟩
    · have hn : nextOf files2 a = 0 := by simp only [nextOf, ha2]
      exact hn ▸ Chains.linked_nil _ _
    · rw [List.mem_singleton.mp hx]
      change files2 a ≠ none
      rw [ha2]
      exact Option.some_ne_none _
  · exact Faddr.noConfusion
  · simp

/-- When a file that is not open is opened for reading and writing, and is truncated. -/
structure Opens (env : Env) (s : Ram) (dd : Nat) (name : Name) (omode : Omode)
    (p : Entry) : Prop where
  dir : checkDd s dd = .ok none
  xusr : ∃ d, ddEntry s dd = .ok d ∧ d.xattr.xusr = true
  rperm : omode.rperm = true
  wperm : omode.wperm = true
  trunc : omode.trunc = true
  excl : (omode.creat && omode.excl) = false
  found : findfile env s dd name 2 (if omode.creat then .exist else .search) false = .ok (some p)
  wusr : ∀ e, getEntry s p = .ok e → e.xattr.wusr = true
  free : ∃ new, (findfd s (some p)).1 = some new ∧
    ((findfd s (some p)).2.fd new).parent = none

theorem fopen_trunc {dd : Nat} {name : Name} {omode : Omode} {env : Env} (hc : Content s p e bs l)
    (ho : Opens env s dd name omode p) (attrib : BitVec 16) (xext : Name → Bool) (k1 k2 : Kmalloc) :
    ∃ new s', fopen env s dd name omode attrib xext k1 k2 = .ok (.handle new, s') ∧
      Rep p s' new ⟨[], 0, 1⟩ := by
  rcases ho.xusr with ⟨d, hd, hx⟩
  rcases ho.free with ⟨new, hnew, hparent⟩
  unfold fopen
  rw [ho.dir, ok_bind]
  dsimp only
  rw [hd, ok_bind, if_neg (by rw [hx]; exact Bool.noConfusion), if_neg (by rw [ho.wperm]; simp)]
  simp only [ho.wperm, ho.trunc, Bool.and_true, Bool.true_and, if_true]
  rw [ho.found, ok_bind]
  dsimp only
  rw [getEntry_eq hc.denotes, ok_bind, if_neg (by rw [hc.file]; exact Fmt.noConfusion),
    if_neg (by rw [hc.file]; exact Fmt.noConfusion),
      if_neg (by simp [ho.wusr e (getEntry_eq hc.denotes)]),
    if_neg (by rw [ho.excl]; exact Bool.noConfusion)]
  rcases findfd_spec s (some p) with ⟨fds, hfd, _⟩
  rcases hff : findfd s (some p) with ⟨r, s1⟩
  rw [hff] at hnew hparent hfd
  dsimp only at hnew hparent hfd
  subst hnew
  simp only
  rw [if_neg (not_not.mpr hparent)]
  have hc1 : Content s1 p e bs l := by
    rw [hfd]
    exact { hc with denotes := denotes_congr rfl rfl hc.denotes }
  rcases truncate_spec hc1 with ⟨s2, e2, a, ht, hc2, _⟩
  rw [ht, ok_bind]
  refine ⟨new, _, rfl, ⟨⟨e2, [a], ?_, rfl⟩, ?_, ?_, ?_, ?_, ?_, ?_, Nat.le_refl 0⟩⟩
  · exact { hc2 with denotes := denotes_congr rfl rfl hc2.denotes }
  · simp
  · simp
  · simp
  · simpa using ho.rperm
  · simpa using ho.wperm
  · simp

/-- After the descriptor has been released. -/
def closed (s : Ram) (fd : Nat) : Ram :=
  let f := { s.fd fd with refcnt := 0, file := none }
  { s with fd := Function.update s.fd fd f }

theorem close_spec (h : Rep p s fd f) :
    close s fd = .ok (.done 0, closed s fd) := by
  rcases h.content with ⟨e, bs, hc, _⟩
  unfold close
  rw [h.checkFd hc, ok_bind]
  dsimp only
  have hword : word16 (1 - 1) = 0 := by decide
  rw [h.refcnt, if_pos (by decide), hword, if_pos rfl]
  rfl

end

/-! ## Sequences of operations -/

inductive FileOp where
  | seek (offset mode : Int)
  | read (count : Nat)
  | write (env : Env) (k : Kmalloc) (count : Nat) (buf : Nat → BitVec 8)
  | reopen (env : Env) (dd : Nat) (name : Name) (omode : Omode) (attrib : BitVec 16)
    (xext : Name → Bool) (k1 k2 : Kmalloc)

/-- An operation on the open file, with what it returns, what has been read and
    the descriptor that is open then. -/
def perform (s : Ram) (fd : Nat) : FileOp → Except Fault (Reply × List (BitVec 8) × Ram × Nat)
  | .seek offset mode => do
    let (r, s) ← seek s fd offset mode
    .ok (r, [], s, fd)
  | .read count => do
    let (r, out, s) ← read s fd count
    .ok (r, out, s, fd)
  | .write env k count buf => do
    let (r, s) ← write env k s fd count buf
    .ok (r, [], s, fd)
  | .reopen env dd name omode attrib xext k1 k2 => do
    let (_, s) ← close s fd
    let (r, s) ← fopen env s dd name omode attrib xext k1 k2
    match r with
    | .handle new => .ok (.done 0, [], s, new)
    | r => .ok (.failed r, [], s, fd)

/-- Sums of a position and a number of bytes fit into 32 bits, also when a write
    beyond the last block rounds one up. A file that is opened again is found. -/
def Fits (p : Entry) (s : Ram) (fd : Nat) : FileOp → Prop
  | .seek offset _ => -2 ^ 31 ≤ offset ∧ offset < 2 ^ 31
  | .read count => (s.fd fd).fpos + count < 2 ^ 31
  | .write _ k count _ => Honest k ∧
      ((∃ e, getEntry s p = .ok e ∧ (s.fd fd).fpos + count ≤ 4096 * e.xattr.blocks) ∨
        (s.fd fd).fpos + count + 4095 < 2 ^ 31)
  | .reopen env dd name omode _ _ _ _ => Opens env (closed s fd) dd name omode p

/-- What an operation does to the array, what it returns and what it reads. A write in the state
    `s` stores all bytes, or `Kmalloc` has refused it a block. -/
def Does (p : Entry) (s : Ram) (f : Flat) : FileOp → Reply → List (BitVec 8) → Flat → Prop
  | .seek offset mode, r, out, f' => Seeks f offset mode r f' ∧ out = []
  | .read count, r, out, f' => r = .done (min count (f.bytes.length - f.pos) : Nat) ∧
      out = (f.bytes.drop f.pos).take count ∧
      f' = { f with pos := f.pos + min count (f.bytes.length - f.pos) }
  | .write env k count buf, r, out, f' => ∃ n, r = .done (n : Nat) ∧ out = [] ∧
      f'.bytes = overwrite f.bytes f.pos (Paged.slice buf 0 n) ∧ f'.pos = f.pos + n ∧
      f.blocks ≤ f'.blocks ∧ n = min count (4096 * f'.blocks - f.pos) ∧
      (n = count ∨ Refused env k p s (f'.blocks - f.blocks))
  | .reopen .., r, out, f' => r = .done 0 ∧ out = [] ∧ f' = ⟨[], 0, 1⟩

section

variable {s : Ram} {p : Entry} {fd : Nat} {f : Flat}

theorem perform_spec (op : FileOp) (h : Rep p s fd f) (hfit : Fits p s fd op) :
    ∃ r out s' fd' f', perform s fd op = .ok (r, out, s', fd') ∧ Does p s f op r out f' ∧
      Rep p s' fd' f' := by
  rcases h.content with ⟨e, bs, hc, hb⟩
  cases op with
  | seek offset mode =>
    rcases seek_spec h offset mode hfit.1 hfit.2 with ⟨r, s', f', hs, hseek, hrep⟩
    refine ⟨r, [], s', fd, f', ?_, ⟨hseek, rfl⟩, hrep⟩
    simp only [perform, hs, ok_bind]
  | read count =>
    have hsum : (s.fd fd).fpos + count < 2 ^ 31 := hfit
    rw [h.fpos] at hsum
    rcases read_spec h count (by omega) with ⟨s', hs, hrep⟩
    refine ⟨_, _, s', fd, _, ?_, ⟨rfl, rfl, rfl⟩, hrep⟩
    simp only [perform, hs, ok_bind]
  | write env k count buf =>
    have hsum : f.pos + count ≤ 4096 * f.blocks ∨ f.pos + count + 4095 < 2 ^ 31 := by
      have hf := hfit.2
      rw [h.fpos] at hf
      rcases hf with ⟨e', he', hle⟩ | hlt
      · rw [getEntry_eq hc.denotes] at he'
        rw [← Except.ok.inj he', hc.blocks] at hle
        omega
      · omega
    rcases write_spec env k hfit.1 h count buf hsum with ⟨n, blocks, s', hs, hrep, hle, hn, hall⟩
    refine ⟨_, [], s', fd, _, ?_, ⟨n, rfl, rfl, rfl, rfl, hle, hn, hall⟩, hrep⟩
    simp only [perform, hs, ok_bind]
  | reopen env dd name omode attrib xext k1 k2 =>
    have hc' : Content (closed s fd) p e bs f.bytes :=
      { hc with denotes := denotes_congr rfl rfl hc.denotes }
    rcases fopen_trunc hc' hfit attrib xext k1 k2 with ⟨new, s', hs, hrep⟩
    refine ⟨.done 0, [], s', new, _, ?_, ⟨rfl, rfl, rfl⟩, hrep⟩
    simp only [perform, close_spec h, ok_bind, hs]

/-- A step of the ramdisk, with the open descriptor. -/
def FileStep (p : Entry) (c : Ram × Nat) (a : FileOp × Reply × List (BitVec 8)) (c' : Ram × Nat) :
    Prop :=
  Fits p c.1 c.2 a.1 ∧ perform c.1 c.2 a.1 = .ok (a.2.1, a.2.2, c'.1, c'.2)

/-- A step of the array, and that of the ramdisk it stands for. -/
def FlatStep (p : Entry) (x : (Ram × Nat) × Flat) (a : FileOp × Reply × List (BitVec 8))
    (x' : (Ram × Nat) × Flat) : Prop :=
  FileStep p x.1 a x'.1 ∧ Does p x.1.1 x.2 a.1 a.2.1 a.2.2 x'.2

/-- All that is read from a file, and all that its functions return, is the same
    as for an array of bytes, and they always return. -/
theorem contents_flat (p : Entry) (c c' : Ram × Nat) (f : Flat)
    (as : List (FileOp × Reply × List (BitVec 8))) (h : Rep p c.1 c.2 f)
    (hrun : Runs.Run (FileStep p) c as c') :
    ∃ f', Runs.Run (FlatStep p) (c, f) as (c', f') ∧ Rep p c'.1 c'.2 f' ∧
      ∀ op, Fits p c'.1 c'.2 op → ∃ r, perform c'.1 c'.2 op = .ok r := by
  induction hrun generalizing f with
  | nil c =>
    refine ⟨f, .nil (c, f), h, fun op hop => ?_⟩
    rcases perform_spec op h hop with ⟨r, out, s', fd', _, hp, _⟩
    exact ⟨_, hp⟩
  | cons c c1 c2 a as hstep _ ih =>
    -- The step of the array is that of the ramdisk.
    rcases perform_spec a.1 h hstep.1 with ⟨r, out, s', fd', f', hp, hd, hrep⟩
    have hsame := Except.ok.inj (hstep.2.symm.trans hp)
    simp only [Prod.mk.injEq] at hsame
    rcases hsame with ⟨hr, hout, hs, hfd⟩
    rw [← hr, ← hout] at hd
    rw [← hs, ← hfd] at hrep
    rcases ih f' hrep with ⟨f2, hrun2, hrep2, hall⟩
    exact ⟨f2, .cons _ (c1, f') _ a as ⟨hstep, hd⟩ hrun2, hrep2, hall⟩

end

/-! ## A file with one block -/

/-- A file of a few bytes, which is open. -/
def oneFile (bytes : Nat) (fpos : Int) : Ram :=
  let e := ⟨[0x41], .mem 2, 0, ⟨sIfreg ||| 0x1b6, faChanged, .mem 2, bytes, 1⟩⟩
  { drvOpen 1 with
    tables := Function.update (fun _ => none) 1 (some ((prepareRoot 1 rootsize).set 2 e))
    files := Function.update (fun _ => none) 2 (some ⟨fun _ => 0, 0⟩)
    fd := Function.update (drvOpen 1).fd 1
      ⟨true, 1, ⟨true, true, false, true, false, false⟩, fpos, some (.slot 1 2), 0, some 0⟩ }

theorem oneFile_rep (n : Nat) (hn : n ≤ 1) :
    Rep (.slot 1 2) (oneFile 1 n) 1 ⟨[0], n, 1⟩ := by
  refine ⟨⟨_, [2], ⟨⟨rfl, by decide, Faddr.noConfusion⟩, rfl, ?_, Faddr.noConfusion,
    List.cons_ne_nil _ _, rfl, by simp, rfl, by simp, rfl⟩, rfl⟩, rfl, rfl, rfl, rfl, rfl, rfl, hn⟩
  refine ⟨(Chains.linked_cons 2).mpr ⟨rfl, by decide, Chains.linked_nil _ _⟩, fun x hx => ?_⟩
  rw [List.mem_singleton.mp hx]
  exact Option.some_ne_none _

def oneBlock (a : Nat) : Kmalloc := fun s =>
  if a ≠ 0 ∧ (s.files a).isNone ∧ (s.tables a).isNone ∧ (s.links a).isNone then some a else none

/-- A process of the MiNT domain. -/
def mintEnv : Env := ⟨.mint, false, fun _ _ => 0⟩

/-- Two blocks are written to, the second of which is new. -/
def writeTwo : FileOp := .write mintEnv (oneBlock 7) 4097 fun i => if i = 4096 then 1 else 0

theorem oneBlock_honest (a : Nat) : Honest (oneBlock a) := by
  intro s m h
  unfold oneBlock at h
  split at h
  · rename_i hfree
    simp only [Option.isNone_iff_eq_none] at hfree
    rw [← Option.some.inj h]
    exact hfree
  · cases h

/-- A file gets a second block, of which the first byte is read again. -/
theorem contents_flat_oneFile : ∃ c' f', Runs.Run (FlatStep (.slot 1 2))
    ((oneFile 1 0, 1), ⟨[0], 0, 1⟩) [(writeTwo, .done 4097, []), (.seek 4096 0, .done 4096, []),
      (.read 5, .done 1, [1])] (c', f') ∧ Rep (.slot 1 2) c'.1 c'.2 f' ∧
        ∀ op, Fits (.slot 1 2) c'.1 c'.2 op → ∃ r, perform c'.1 c'.2 op = .ok r := by
  have heval : (do
      let a ← perform (oneFile 1 0) 1 writeTwo
      let b ← perform a.2.2.1 a.2.2.2 (.seek 4096 0)
      let c ← perform b.2.2.1 b.2.2.2 (.read 5)
      .ok ((a.1, a.2.1), (b.1, b.2.1, (b.2.2.1.fd b.2.2.2).fpos), c.1, c.2.1)) =
        Except.ok ((Reply.done 4097, []), (Reply.done 4096, [], (4096 : Int)), Reply.done 1,
          [1]) := by
    decide +kernel
  rcases Outcome.ok_of_bind heval with ⟨⟨ra, oa, ca⟩, ha, heval⟩
  rcases Outcome.ok_of_bind heval with ⟨⟨rb, ob, cb⟩, hb, heval⟩
  rcases Outcome.ok_of_bind heval with ⟨⟨rc, oc, cc⟩, hc, heval⟩
  have h := Except.ok.inj heval
  simp only [Prod.mk.injEq] at h
  rcases h with ⟨⟨rfl, rfl⟩, ⟨rfl, rfl, hpos⟩, rfl, rfl⟩
  refine ⟨cc, contents_flat (.slot 1 2) (oneFile 1 0, 1) cc ⟨[0], 0, 1⟩ _
    (oneFile_rep 0 (by decide)) (.cons _ ca _ _ _ ⟨⟨oneBlock_honest 7, Or.inr ?_⟩, ha⟩
      (.cons _ cb _ _ _ ⟨show _ ∧ _ by decide, hb⟩ (.cons _ cc _ _ _ ⟨?_, hc⟩ (.nil _))))⟩
  · show (0 : Int) + (4097 : Nat) + 4095 < 2 ^ 31
    decide
  · show (cb.1.fd cb.2).fpos + (5 : Nat) < 2 ^ 31
    rw [hpos]
    decide

/-- With sums that do not fit into 32 bits, a write stops at the last block
    although there is memory, and a read goes beyond it. -/
theorem sums_wrap :
    Rep (.slot 1 2) (oneFile 1 0) 1 ⟨[0], 0, 1⟩ ∧ oneBlock 7 (oneFile 1 0) = some 7 ∧
      (write mintEnv (oneBlock 7) (oneFile 1 0) 1 (2 ^ 31 - 1) (fun _ => 0)).map Prod.fst =
        .ok (.done 4096) ∧
      Rep (.slot 1 2) (oneFile 1 1) 1 ⟨[0], 1, 1⟩ ∧
      (read (oneFile 1 1) 1 (2 ^ 31 - 1)).map Prod.fst = .error .dangling :=
  ⟨oneFile_rep 0 (by decide), by decide +kernel, by decide +kernel, oneFile_rep 1 (by decide),
    by decide +kernel⟩

end Ramdisk

end MagiC
