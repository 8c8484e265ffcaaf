import Mathlib.Data.List.Chain
import MagiC.Fat.Separate
import MagiC.Vfat.Tables

/-!
# Creating a Symbolic Link

`dxfs_symlink`, from the name test to the directory entry.

A file is created in steps: the name is looked for and tested, room is made in the directory, the
file system creates what belongs to the file, and then the name is written. For a symbolic link the
file system takes a cluster and writes the path into its first sector. Only then does it compare the
length of the path with the sector, and if the path is too long it returns an error, and leaves the
cluster in the FAT. All other errors come before the cluster is taken, or are errors of the medium.

The directory is a list of entries to the one half of the code and a chain of clusters to the
other half. `dirVol` says how they belong together: making the directory longer is `f_extend` at
its last cluster, and each cluster adds as many entries as it holds (`grow_spec`).

What is written into the sectors of the files is left out, and no medium has errors.

## Main definitions

* `Undone`: Nothing is left behind.

## Theorems

* `symlink_undone_iff`: When nothing is left behind by an error.
-/

namespace MagiC

namespace Vfat

def EFILNF : Int := -33

/-! ### The definitions -/

/-- What there is before the call: the drive with its FAT and the descriptors, whether it has long
    names, the directory with its descriptor, its last cluster and its entries, the byte in front of
    the new short name, the descriptor on the stack, and the time. The root directory of a drive
    without a 32 bit FAT has no clusters. -/
structure Place where
  d : Fat.Drive
  v : Fat.Volume
  d_flags : Bool
  dd : Nat
  last : Option Nat
  fd : Fd
  before : UInt8
  sp : Nat
  dos_time : Nat
  dos_date : Nat
  reopen : Option Int
  srch : Except Int Nat

/-- The number of entries in a cluster. -/
def perCluster (d : Fat.Drive) : Nat := d.clsiz * d.recsiz / 32

/-- A descriptor at a cluster. -/
def atCluster (v : Fat.Volume) (dd c : Nat) : Fat.Volume := v.setFd dd { v.fds dd with ccl := c }

/-- The position fields of a descriptor that were saved. -/
def restored (old fd : Fat.Fd) : Fat.Fd :=
  { fd with ccl := old.ccl, csec := old.csec, clpos := old.clpos }

/-- `dfs_fat_ext_fd`, for a directory with a last cluster: append a cluster to it, and restore
    the position. -/
def extDir (d : Fat.Drive) (dd : Nat) (s : Fat.Volume × Nat) : Except Int (Fat.Volume × Nat) :=
  let r := Fat.fExtend d (atCluster s.1 dd s.2) dd true
  if r.2 < 0 then .error r.2
  else if r.2 ≠ 0 then .error Fat.EACCDN
  else .ok (r.1.setFd dd (restored (s.1.fds dd) (r.1.fds dd)), (r.1.fds dd).ccl)

/-- Append a number of clusters. -/
def grow (d : Fat.Drive) (dd : Nat) (s : Fat.Volume × Nat) : Nat → Except Int (Fat.Volume × Nat)
  | 0 => .ok s
  | k + 1 =>
    match grow d dd s k with
    | .error e => .error e
    | .ok s => extDir d dd s

/-- Whether a directory of `n` entries can be made longer, and by how many entries. -/
def dirExt (p : Place) (n : Nat) : Except Int Nat :=
  match p.last with
  | none => .error Fat.EACCDN
  | some c =>
    match grow p.d p.dd (p.v, c) ((n - p.fd.entries.length) / perCluster p.d + 1) with
    | .error e => .error e
    | .ok _ => .ok (perCluster p.d)

theorem grow_neg (d : Fat.Drive) (dd : Nat) (s : Fat.Volume × Nat) (k : Nat) (e : Int)
    (h : grow d dd s k = .error e) : e < 0 := by
  induction k generalizing e with
  | zero =>
    rw [grow] at h
    simp only [reduceCtorEq] at h
  | succ k ih =>
    rw [grow] at h
    cases hk : grow d dd s k with
    | error e' =>
      rw [hk] at h
      rw [← Except.error.inj h]
      exact ih e' hk
    | ok s' =>
      rw [hk] at h
      simp only [extDir] at h
      generalize Fat.fExtend d _ dd true = r at h
      by_cases hneg : r.2 < 0
      · rw [if_pos hneg] at h
        rw [← Except.error.inj h]
        exact hneg
      rw [if_neg hneg] at h
      by_cases hne : r.2 ≠ 0
      · rw [if_pos hne] at h
        rw [← Except.error.inj h]
        decide
      · rw [if_neg hne] at h
        simp only [reduceCtorEq] at h

/-- The directory's volume. Nothing is written behind the last entry. -/
def dirVol (p : Place) : Vol where
  d_flags := p.d_flags
  extfd := dirExt p
  stale := fun _ => .error Fat.EACCDN
  extfd_neg := by
    intro n doserr h
    unfold dirExt at h
    cases hlast : p.last with
    | none =>
      rw [hlast] at h
      rw [← Except.error.inj h]
      decide
    | some c =>
      rw [hlast] at h
      simp only at h
      cases hg : grow p.d p.dd (p.v, c) ((n - p.fd.entries.length) / perCluster p.d + 1) with
      | error e =>
        rw [hg] at h
        rw [← Except.error.inj h]
        exact grow_neg _ _ _ _ e hg
      | ok s =>
        rw [hg] at h
        simp only [reduceCtorEq] at h
  stale_neg := by
    intro n doserr h
    rw [← Except.error.inj h]
    decide

/-- The drive when the directory has `n` entries. -/
def volumeAt (p : Place) (n : Nat) : Fat.Volume :=
  match p.last with
  | none => p.v
  | some c =>
    match grow p.d p.dd (p.v, c) ((n - p.fd.entries.length) / perCluster p.d) with
    | .error _ => p.v
    | .ok s => s.1

/-- The DIR on the stack, with the short name. -/
def newEntry (name : List UInt8) : Entry :=
  { Entry.zero with
    head := (conv83 name).headD 0, name1 := (conv83 name).tail
    name1_length := by rw [List.length_tail, conv83_length] }

/-- The number of bytes of a path that are stored: with its end, and even. -/
def pathLen (link : List UInt8) : Nat := (link.length + 2) / 2 * 2

/-- The bytes of a word in Intel byte order. -/
def intelWord (n : Nat) : List UInt8 := [UInt8.ofNat n, UInt8.ofNat (n / 2 ^ 8)]

/-- What is entered in the DIR of a symbolic link. -/
def Entry.symlink (dir : Entry) (dos_time dos_date stcl flen : Nat) : Entry :=
  { dir with
    attr := 0x40, unused := 0, chksum := 0
    name2 :=
      List.replicate 6 0 ++ intelWord (stcl / 2 ^ 16) ++ intelWord dos_time ++ intelWord dos_date
    stcl := intelWord stcl
    name3 := intelWord flen ++ intelWord (flen / 2 ^ 16)
    name2_length := rfl, stcl_length := rfl, name3_length := rfl }

/-- `_fcre_symlink`: take a cluster for the path, and test the path. -/
def fcreSymlink (p : Place) (v : Fat.Volume) (link : List UInt8) (dir : Entry) :
    Fat.Volume × Except Int Entry :=
  let v := v.setFd p.sp { v.fds p.sp with multi1 := p.sp, ccl := 0, stcl := 0 }
  let r := Fat.fExtend p.d v p.sp true
  if r.2 < 0 then (r.1, .error r.2)
  else
    let stcl := (r.1.fds p.sp).stcl
    if p.d.recsiz - 4 < pathLen link then (r.1, .error ERANGE)
    else (r.1, .ok (dir.symlink p.dos_time p.dos_date stcl (pathLen link + 2)))

/-- What the call yields: an error or 0, and what the FAT and the directory are then. -/
structure Symlink where
  ret : Int
  fat : Fat.Sectors
  fd : Fd

/-- `dxfs_symlink`. There is no result when the search for room leaves its tables. -/
def dxfsSymlink (p : Place) (name link : List UInt8) : Option Symlink :=
  match p.reopen with
  | some doserr => some ⟨doserr, p.v.fat, p.fd⟩
  | none =>
    match p.srch with
    | .ok _ => some ⟨Fat.EACCDN, p.v.fat, p.fd⟩
    | .error doserr =>
      if doserr ≠ EFILNF then some ⟨doserr, p.v.fat, p.fd⟩
      else if tstName name ≠ 0 then some ⟨EBADRQ, p.v.fat, p.fd⟩
      else
        match vfFfreeOn p.before (dirVol p) (-1) (-1) p.fd name (newEntry name) with
        | none => none
        | some (fd, r) =>
          let v := volumeAt p fd.entries.length
          if r.ret < 0 then some ⟨r.ret, v.fat, fd⟩
          else
            match fcreSymlink p v link r.newdir with
            | (v, .error doserr) => some ⟨doserr, v.fat, fd⟩
            | (v, .ok dir) =>
              let w := pFseek fd (r.firstdirpos.getD 0)
              if w.2 < 0 then some ⟨w.2, v.fat, w.1⟩
              else
                let w := vfCrnam (dirVol p) w.1 dir r.longname
                some ⟨if w.2 < 0 then w.2 else 0, v.fat, w.1⟩

/-- A drive, and a directory that ends at its last cluster. -/
structure PlaceOk (p : Place) : Prop where
  drive : Fat.DriveOk p.d
  cluster : 6 ≤ perCluster p.d
  last : ∀ c, p.last = some c →
    Fat.IsCluster p.d c ∧ Fat.link p.d.toDmd p.v.fat c = Fat.EOF

/-! ### The directory gets longer -/

/-- What has been appended to a chain that ends at `c`: clusters that were free, one after the
    other. -/
structure Appended (d : Fat.Drive) (fat fat' : Fat.Sectors) (c c' : Nat)
    (new : List Nat) : Prop where
  chain : List.IsChain (fun a b => Fat.link d.toDmd fat' a = b) (c :: new)
  last : (c :: new).getLast? = some c'
  ends : Fat.link d.toDmd fat' c' = Fat.EOF
  clusters : ∀ b ∈ c :: new, Fat.IsCluster d b
  free : ∀ b, Fat.rawEntry d.toDmd fat' b = 0 ↔ Fat.rawEntry d.toDmd fat b = 0 ∧ b ∉ new

section Grow

variable {d : Fat.Drive} (ok : Fat.DriveOk d)
include ok

theorem extDir_cases (dd c : Nat) (v : Fat.Volume) (hc : Fat.IsCluster d c)
    (hlast : Fat.link d.toDmd v.fat c = Fat.EOF) :
    (∃ e, extDir d dd (v, c) = .error e) ∨
      ∃ v' n, extDir d dd (v, c) = .ok (v', n) ∧ Fat.IsCluster d n ∧
        Fat.rawEntry d.toDmd v.fat n = 0 ∧
        Fat.link d.toDmd v'.fat = Function.update
          (Function.update (Fat.link d.toDmd v.fat) n Fat.EOF)
          c n ∧
        ∀ b, Fat.rawEntry d.toDmd v'.fat b = 0 ↔ Fat.rawEntry d.toDmd v.fat b = 0 ∧ b ≠ n := by
  have hc0 := (Fat.cluster_ne_EOF ok c hc).2
  have hccl : ((atCluster v dd c).fds dd).ccl = c := by
    simp only [atCluster, Fat.Volume.setFd, Function.update_self]
  have hnext : Fat.fexNext d (atCluster v dd c) dd = Fat.EOF := by
    unfold Fat.fexNext
    rw [hccl, if_pos hc0, Fat.readFat_eq _ _ ok.geo c (ok.inFat c hc.2)]
    exact hlast
  have hraw : Fat.rawEntry d.toDmd v.fat c ≠ 0 := by
    refine Fat.raw_of_link _ _ c ?_
    rw [hlast]
    decide
  unfold extDir
  simp only
  rcases Fat.fExtend_cases ok _ dd (.inr (by rw [hccl]; exact hc)) with
    ⟨hne, -⟩ | ⟨-, v', e, hrun, he, -⟩ | ⟨-, v', n, hres, hrun⟩
  · exact absurd hnext hne
  · refine .inl ?_
    rw [hrun]
    by_cases hneg : e < 0
    · exact ⟨e, if_pos hneg⟩
    · exact ⟨Fat.EACCDN, by rw [if_neg hneg, if_pos he]⟩
  · -- The cluster was free, so it is not the last one of the directory.
    have hent := hres.entered
    have hfree := hres.free
    rw [show (atCluster v dd c).fat = v.fat from rfl] at hent hfree
    have hnc : c ≠ n := by
      rintro rfl
      exact hraw hfree
    have hcn := Fat.entered_cluster ok v'.fat c n hc hres.cluster
    rw [hccl] at hrun
    generalize hw : Fat.fexSeeknxt d (Fat.fexFound d v' ((atCluster v dd c).fds dd).multi1 c n) dd n
      = w at hrun
    have hwccl : (w.fds dd).ccl = n := by
      rw [← hw]
      simp only [Fat.fexSeeknxt, Fat.Volume.setFd, Function.update_self]
    have hwfat : w.fat = Fat.writeFat d.toDmd v'.fat c n := by
      rw [← hw, Fat.fexFound]
      simp only [if_neg hc0]
      rfl
    refine .inr ⟨w.setFd dd (restored (v.fds dd) (w.fds dd)), n, ?_, hres.cluster, hfree, ?_,
      fun b => ?_⟩
    · rw [hrun, if_neg (Int.lt_irrefl 0), if_neg (not_not_intro rfl), hwccl]
    · rw [show (w.setFd dd (restored (v.fds dd) (w.fds dd))).fat = w.fat from rfl, hwfat, hcn.link,
        hent.link]
    · rw [show (w.setFd dd (restored (v.fds dd) (w.fds dd))).fat = w.fat from rfl, hwfat,
        hcn.free b, hent.free b]
      refine ⟨fun h => ⟨h.2.2, h.2.1⟩, fun h => ⟨?_, h.2, h.1⟩⟩
      rintro rfl
      exact hraw h.1

/-- What the directory has taken from the FAT after a number of clusters. -/
theorem grow_spec (dd c k : Nat) (v v' : Fat.Volume) (c' : Nat) (hc : Fat.IsCluster d c)
    (hlast : Fat.link d.toDmd v.fat c = Fat.EOF) (h : grow d dd (v, c) k = .ok (v', c')) :
    ∃ new, new.length = k ∧ Appended d v.fat v'.fat c c' new := by
  induction k generalizing v' c' with
  | zero =>
    rw [grow, Except.ok.injEq, Prod.mk.injEq] at h
    rcases h with ⟨rfl, rfl⟩
    exact ⟨[], rfl, List.isChain_singleton _, rfl, hlast,
      fun b hb => by rw [List.mem_singleton.mp hb]; exact hc,
      fun b => ⟨fun hb => ⟨hb, List.not_mem_nil⟩, fun hb => hb.1⟩⟩
  | succ k ih =>
    rw [grow] at h
    cases hk : grow d dd (v, c) k with
    | error e =>
      rw [hk] at h
      simp only [reduceCtorEq] at h
    | ok s =>
      rcases s with ⟨v1, c1⟩
      rw [hk] at h
      rcases ih v1 c1 hk with ⟨new, hlen, happ⟩
      have hc1 := happ.clusters c1 (List.mem_of_getLast? happ.last)
      rcases extDir_cases ok dd c1 v1 hc1 happ.ends with
        ⟨e, hrun⟩ | ⟨v2, n, hrun, hn, hfree, hlink, hraw⟩
      · simp only [hrun, reduceCtorEq] at h
      simp only [hrun, Except.ok.injEq, Prod.mk.injEq] at h
      rcases h with ⟨rfl, rfl⟩
      refine ⟨new ++ [n], by rw [List.length_append, hlen]; rfl, ?_⟩
      have hnc : n ≠ c1 := by
        rintro rfl
        refine Fat.raw_of_link _ _ n ?_ hfree
        rw [happ.ends]
        decide
      -- The links before the last one are as they were.
      have hkept : ∀ a b, a ∈ c :: new → b ∈ c :: new → Fat.link d.toDmd v1.fat a = b →
          Fat.link d.toDmd v2.fat a = b := by
        intro a b _ hb hab
        rcases Fat.cluster_ne_EOF ok b (happ.clusters b hb) with ⟨hbe, hb0⟩
        rw [hlink, Function.update_of_ne, Function.update_of_ne, hab]
        · rintro rfl
          exact Fat.raw_of_link _ _ a (by rw [hab]; exact hb0) hfree
        · rintro rfl
          rw [happ.ends] at hab
          exact hbe hab.symm
      refine ⟨?_, ?_, ?_, fun b hb => ?_, fun b => ?_⟩
      · rw [← List.cons_append, List.isChain_append]
        refine ⟨happ.chain.imp_of_mem_imp (fun a b ha hb => hkept a b ha hb),
          List.isChain_singleton n, fun x hx y hy => ?_⟩
        rw [happ.last] at hx
        rw [← Option.some.inj hx, ← Option.some.inj hy, hlink, Function.update_self]
      · rw [← List.cons_append, List.getLast?_append]
        rfl
      · rw [hlink, Function.update_of_ne hnc, Function.update_self]
      · rw [← List.cons_append] at hb
        rcases List.mem_append.mp hb with hb | hb
        · exact happ.clusters b hb
        · rw [List.mem_singleton.mp hb]
          exact hn
      · rw [hraw b, happ.free b, List.mem_append, List.mem_singleton, not_or, and_assoc]

end Grow

/-- A directory that has been made longer, one cluster after the other. -/
inductive Grown (vol : Vol) (es : List Entry) : List Entry → Prop where
  | refl : Grown vol es es
  | step (es' : List Entry) (n : Nat) (hgrown : Grown vol es es')
      (hext : vol.extfd es'.length = .ok n) : Grown vol es (es' ++ List.replicate n Entry.zero)

theorem pExtfd_grown (vol : Vol) (es : List Entry) (fd : Fd) (h : Grown vol es fd.entries) :
    Grown vol es (pExtfd vol fd).1.entries := by
  unfold pExtfd
  cases hext : vol.extfd fd.entries.length with
  | error doserr => exact h
  | ok n => exact .step _ n h hext

theorem makeRoom_grown (vol : Vol) (es : List Entry) (gap_pos len n : Nat) (fd : Fd)
    (h : Grown vol es fd.entries) : Grown vol es (makeRoom vol gap_pos len n fd).1.entries := by
  induction n generalizing len fd with
  | zero => exact h
  | succ n ih =>
    have hseek := pFseek_entries fd (gap_pos + 32 * len + 1)
    rw [makeRoom]
    generalize pFseek fd (gap_pos + 32 * len + 1) = r at hseek
    have hstep : Grown vol es (if r.2 = ERANGE then pExtfd vol r.1 else r).1.entries := by
      by_cases herr : r.2 = ERANGE
      · rw [if_pos herr]
        exact pExtfd_grown vol es r.1 (by rw [hseek]; exact h)
      · rw [if_neg herr, hseek]
        exact h
    generalize (if r.2 = ERANGE then pExtfd vol r.1 else r) = r' at hstep
    by_cases hneg : r'.2 < 0
    · simp only [if_pos hneg]
      exact hstep
    · simp only [if_neg hneg]
      exact ih (len + 1) r'.1 hstep

theorem ffreeLoop_grown (vol : Vol) (want : Want) (fd fd' : Fd) (gap : Gap) (fin : FfreeEnd)
    (h : ffreeLoop vol want fd 0 fd.entries gap = some (fd', fin)) :
    Grown vol fd.entries fd'.entries := by
  rcases ffreeLoop_halts vol want fd fd' gap fin h with ⟨m, gap1, hhalts⟩
  have hmake := makeRoom_grown vol fd.entries ((gap1.grow (32 * m)).gap_pos.getD 0)
    (gap1.grow (32 * m)).gap_len (want.ndirs - (gap1.grow (32 * m)).gap_len) fd .refl
  cases hhalts with
  | error => exact .refl
  | found => exact .refl
  | frei => exact .refl
  | full => exact pExtfd_grown vol fd.entries fd .refl
  | extended => exact pExtfd_grown vol fd.entries fd .refl
  | crowded _ _ hroom =>
    rw [hroom] at hmake
    exact hmake
  | room _ _ _ _ _ hroom =>
    rw [hroom] at hmake
    exact hmake

theorem vfFfreeOn_loop (before : UInt8) (vol : Vol) (specialpos specialfirstpos : Int)
    (fd fd' : Fd) (name : List UInt8) (newdir : Entry) (r : Ffree)
    (h : vfFfreeOn before vol specialpos specialfirstpos fd name newdir = some (fd', r)) :
    r.longname = (if vol.d_flags && ext83 newdir.name != name then some name else none) ∧
      (fd' = fd ∨ ∃ want gap fin,
        ffreeLoop vol want { fd with fpos := 0 } 0 fd.entries gap = some (fd', fin)) := by
  rcases vfFfreeOn_cases before vol specialpos specialfirstpos fd fd' name newdir r h with
    ⟨rfl, rfl⟩ | ⟨-, hends⟩
  · exact ⟨rfl, .inl rfl⟩
  cases hends with
  | ret doserr hloop => exact ⟨rfl, .inr ⟨_, _, _, hloop⟩⟩
  | frei actpos hloop => exact ⟨rfl, .inr ⟨_, _, _, hloop⟩⟩
  | ende gap r hloop hend =>
    refine ⟨?_, .inr ⟨_, _, _, hloop⟩⟩
    rcases ffreeEndeOn_cases before _ _ gap r hend with rfl | ⟨dir, rfl, -⟩
    · rfl
    · unfold Gap.answer
      split <;> rfl

/-- The search for room only makes the directory longer. -/
theorem vfFfreeOn_grown (before : UInt8) (vol : Vol) (specialpos specialfirstpos : Int)
    (fd fd' : Fd)
    (name : List UInt8) (newdir : Entry) (r : Ffree)
    (h : vfFfreeOn before vol specialpos specialfirstpos fd name newdir = some (fd', r)) :
    Grown vol fd.entries fd'.entries := by
  rcases (vfFfreeOn_loop before vol specialpos specialfirstpos fd fd' name newdir r h).2 with
    rfl | ⟨want, gap, fin, hloop⟩
  · exact .refl
  · exact ffreeLoop_grown vol want { fd with fpos := 0 } fd' gap fin hloop

/-- The clusters that have been appended to the directory. -/
def Taken (p : Place) (fat : Fat.Sectors) (new : List Nat) : Prop :=
  match p.last with
  | none => new = []
  | some c => List.IsChain (fun a b => Fat.link p.d.toDmd fat a = b) (c :: new) ∧
      ∀ b ∈ new, Fat.IsCluster p.d b

/-- Each cluster has been appended. -/
def GrownBy (p : Place) (k : Nat) : Prop :=
  match p.last with
  | none => k = 0
  | some c => ∃ s, grow p.d p.dd (p.v, c) k = .ok s

theorem grown_entries (p : Place) (hper : 0 < perCluster p.d) (es : List Entry)
    (h : Grown (dirVol p) p.fd.entries es) :
    ∃ k, es = p.fd.entries ++ List.replicate (k * perCluster p.d) Entry.zero ∧ GrownBy p k := by
  induction h with
  | refl =>
    refine ⟨0, by rw [Nat.zero_mul]; exact (List.append_nil _).symm, ?_⟩
    unfold GrownBy
    cases p.last with
    | none => rfl
    | some c => exact ⟨_, rfl⟩
  | step es n hgrown hext ih =>
    rcases ih with ⟨k, rfl, hk⟩
    have hext' : dirExt p (p.fd.entries ++ List.replicate (k * perCluster p.d) Entry.zero).length
      = .ok n := hext
    unfold dirExt at hext'
    rw [List.length_append, List.length_replicate, Nat.add_sub_cancel_left,
      Nat.mul_div_cancel _ hper] at hext'
    unfold GrownBy at hk ⊢
    cases hlast : p.last with
    | none =>
      rw [hlast] at hext'
      simp only [reduceCtorEq] at hext'
    | some c =>
      rw [hlast] at hext'
      simp only at hext'
      cases hg : grow p.d p.dd (p.v, c) (k + 1) with
      | error e =>
        rw [hg] at hext'
        simp only [reduceCtorEq] at hext'
      | ok s =>
        rw [hg] at hext'
        rw [← Except.ok.inj hext']
        refine ⟨k + 1, ?_, s, hg⟩
        rw [List.append_assoc, ← List.replicate_add, Nat.succ_mul]

theorem Appended.next {d : Fat.Drive} {fat fat' : Fat.Sectors} {c c' : Nat} {new : List Nat}
    (h : Appended d fat fat' c c' new) (a : Nat) (ha : a ∈ c :: new) :
    Fat.link d.toDmd fat' a ∈ new ∨ Fat.link d.toDmd fat' a = Fat.EOF := by
  rcases h with ⟨hchain, hlast, hend, -, -⟩
  induction new generalizing c a with
  | nil =>
    rw [List.mem_singleton.mp ha]
    rw [List.getLast?_singleton, Option.some.injEq] at hlast
    rw [hlast]
    exact .inr hend
  | cons b new ih =>
    rw [List.isChain_cons_cons] at hchain
    rcases List.mem_cons.mp ha with rfl | ha
    · rw [hchain.1]
      exact .inl List.mem_cons_self
    · refine (ih a ha hchain.2 ?_).imp_left (fun h => List.mem_cons_of_mem b h)
      rw [List.getLast?_cons_cons] at hlast
      exact hlast

/-- What the directory has taken when it has been made longer, and where its chain leads. -/
structure TakenBy (p : Place) (fat : Fat.Sectors) (new : List Nat) : Prop where
  taken : Taken p fat new
  next : ∀ c, p.last = some c → ∀ a ∈ c :: new,
    Fat.link p.d.toDmd fat a ∈ new ∨ Fat.link p.d.toDmd fat a = Fat.EOF
  free : ∀ b, Fat.rawEntry p.d.toDmd fat b = 0 ↔ Fat.rawEntry p.d.toDmd p.v.fat b = 0 ∧ b ∉ new

theorem volumeAt_spec (p : Place) (hp : PlaceOk p) (k : Nat) (hk : GrownBy p k) :
    ∃ new, TakenBy p (volumeAt p (p.fd.entries.length + k * perCluster p.d)).fat new := by
  have hper : 0 < perCluster p.d := by
    have h6 := hp.cluster
    omega
  unfold volumeAt
  unfold GrownBy at hk
  rw [Nat.add_sub_cancel_left, Nat.mul_div_cancel _ hper]
  cases hlast : p.last with
  | none =>
    refine ⟨[], ?_, fun c hc => ?_, fun b => ⟨fun hb => ⟨hb, List.not_mem_nil⟩, fun hb => hb.1⟩⟩
    · unfold Taken
      rw [hlast]
    · rw [hlast] at hc
      simp only [reduceCtorEq] at hc
  | some c =>
    rw [hlast] at hk
    rcases hk with ⟨s, hs⟩
    rcases s with ⟨v', c'⟩
    rcases hp.last c hlast with ⟨hc, hend⟩
    rcases grow_spec hp.drive p.dd c k p.v v' c' hc hend hs with ⟨new, -, happ⟩
    simp only [hs]
    refine ⟨new, ?_, fun b hb a ha => ?_, happ.free⟩
    · unfold Taken
      rw [hlast]
      exact ⟨happ.chain, fun b hb => happ.clusters b (List.mem_cons_of_mem c hb)⟩
    · rw [hlast, Option.some.injEq] at hb
      rw [← hb] at ha
      exact happ.next a ha

/-! ### The cluster for the path -/

theorem fcre_cases (p : Place) (ok : Fat.DriveOk p.d) (v : Fat.Volume) (link : List UInt8)
    (dir : Entry) :
    ((∀ c, Fat.IsCluster p.d c → Fat.rawEntry p.d.toDmd v.fat c ≠ 0) ∧
      (fcreSymlink p v link dir).1.fat = v.fat) ∨
    ∃ n, Fat.IsCluster p.d n ∧ Fat.rawEntry p.d.toDmd v.fat n = 0 ∧
      Fat.Entered p.d.toDmd v.fat (fcreSymlink p v link dir).1.fat n Fat.EOF ∧
      (p.d.recsiz - 4 < pathLen link → (fcreSymlink p v link dir).2 = .error ERANGE) ∧
      (pathLen link ≤ p.d.recsiz - 4 → ∃ dir', (fcreSymlink p v link dir).2 = .ok dir') := by
  unfold fcreSymlink
  generalize hv : v.setFd p.sp { v.fds p.sp with multi1 := p.sp, ccl := 0, stcl := 0 } = v1
  have hfat : v1.fat = v.fat := by
    rw [← hv]
    rfl
  have hsp : (v1.fds p.sp).ccl = 0 ∧ (v1.fds p.sp).multi1 = p.sp ∧ (v1.fds p.sp).stcl = 0 := by
    rw [← hv]
    simp only [Fat.Volume.setFd, Function.update_self, and_self]
  have hnext : Fat.fexNext p.d v1 p.sp = Fat.EOF := by
    unfold Fat.fexNext
    rw [hsp.1, if_neg (not_not_intro rfl), hsp.2.1, hsp.2.2]
    exact if_neg (not_not_intro rfl)
  simp only
  rcases Fat.fExtend_cases ok v1 p.sp (.inl hsp.1) with
    ⟨hne, -⟩ | ⟨-, v', e, hrun, -, hfull⟩ | ⟨-, v', n, hres, hrun⟩
  · exact absurd hnext hne
  · -- Nothing is free. On a FAT of words or longwords the code goes on with no cluster.
    refine .inl ⟨fun c hc => ?_, ?_⟩
    · rw [← hfat]
      exact hfull.full c hc
    · rw [hrun]
      simp only
      split_ifs
      · rw [hfull.fat, hfat]
      · rw [hfull.fat, hfat]
      · rw [hfull.fat, hfat]
  · have hent := hres.entered
    have hfree := hres.free
    rw [hfat] at hent hfree
    rw [hsp.1, hsp.2.1] at hrun
    refine .inr ⟨n, hres.cluster, hfree, ?_, fun hlong => ?_, fun hfits => ?_⟩
    · rw [hrun]
      simp only
      rw [if_neg (Int.lt_irrefl 0)]
      split_ifs
      · exact hent
      · exact hent
    · rw [hrun]
      simp only
      rw [if_neg (Int.lt_irrefl 0), if_pos hlong]
    · rw [hrun]
      simp only
      rw [if_neg (Int.lt_irrefl 0), if_neg (by omega)]
      exact ⟨_, rfl⟩

/-! ### The name is written -/

theorem pFwrite_inside (vol : Vol) (fd : Fd) (dir : Entry) (j : Nat) (hpos : fd.fpos = 32 * j)
    (hj : j < fd.entries.length) :
    pFwrite vol fd dir = ({ fd with entries := fd.entries.set j dir, fpos := 32 * (j + 1) },
      32) := by
  have hk : fd.fpos / 32 = j := by omega
  unfold pFwrite
  simp only [hk]
  rw [if_pos hj, hpos, Nat.mul_add]

theorem crLoop_room (vol : Vol) (longname : List UInt8) (ndirs : Nat) (ldir : Entry) (fd : Fd)
    (j : Nat) (hpos : fd.fpos = 32 * j) (hroom : j + ndirs ≤ fd.entries.length) :
    (crLoop vol longname ndirs ldir fd).2 = none ∧
      (crLoop vol longname ndirs ldir fd).1.fpos = 32 * (j + ndirs) ∧
      (crLoop vol longname ndirs ldir fd).1.entries.length = fd.entries.length := by
  induction ndirs generalizing ldir fd j with
  | zero => exact ⟨rfl, hpos, rfl⟩
  | succ ndirs ih =>
    rw [crLoop]
    simp only [pFwrite_inside vol fd _ j hpos (by omega)]
    rw [if_neg (by omega)]
    generalize ldir.putName (longname.drop (13 * ndirs)) _ = piece
    rcases ih (piece.putHead (UInt8.ofNat ndirs))
      { fd with entries := fd.entries.set j piece, fpos := 32 * (j + 1) } (j + 1) rfl
      (by rw [List.length_set]; omega) with ⟨hnone, hfpos, hlen⟩
    refine ⟨hnone, ?_, ?_⟩
    · rw [hfpos]
      omega
    · rw [hlen, List.length_set]

/-- A name is written if there is room for it. -/
theorem vfCrnam_room (vol : Vol) (fd : Fd) (newdir : Entry) (longname : Option (List UInt8))
    (j : Nat)
    (hpos : fd.fpos = 32 * j)
    (hroom : j + (match longname with | none => 1 | some name => (name.length + 12) / 13 + 1)
      ≤ fd.entries.length) : (vfCrnam vol fd newdir longname).2 = 32 := by
  unfold vfCrnam
  rw [if_neg (by omega)]
  cases longname with
  | none =>
    simp only at hroom
    simp only [pFwrite_inside vol fd newdir j hpos (by omega)]
  | some name =>
    simp only at hroom
    rcases crLoop_room vol name ((name.length + 12) / 13) (ldirInit (UInt8.ofNat
      (0x40 + (name.length + 12) / 13)) (vfChksum newdir.name)) fd j hpos (by omega) with
      ⟨hnone, hfpos, hlen⟩
    simp only
    generalize crLoop vol name _ _ fd = r at hnone hfpos hlen
    rcases r with ⟨fd1, err⟩
    rw [show err = none from hnone]
    simp only [pFwrite_inside vol fd1 newdir _ hfpos (by simp only at hlen; omega)]

/-! ### All or nothing -/

/-- Nothing is left behind: no cluster is allocated that was free, except for those that have
    been appended to the directory, and the directory has no new entry but the empty ones of
    these clusters. -/
structure Undone (p : Place) (r : Symlink) : Prop where
  clusters : ∃ new, Taken p r.fat new ∧ ∀ c, Fat.IsCluster p.d c →
    (Fat.rawEntry p.d.toDmd r.fat c = 0 ↔ Fat.rawEntry p.d.toDmd p.v.fat c = 0 ∧ c ∉ new)
  entries : ∃ n, r.fd.entries = p.fd.entries ++ List.replicate n Entry.zero

/-- When the creation of a link fails, nothing is left behind. -/
def AllOrNothing (p : Place) (name link : List UInt8) : Prop :=
  ∀ r, dxfsSymlink p name link = some r → r.ret < 0 → Undone p r

/-- The creation comes to the test of the path, with a cluster that was free, and the path is too
    long for a sector. -/
structure Leaks (p : Place) (name link : List UInt8) : Prop where
  reopen : p.reopen = none
  srch : p.srch = .error EFILNF
  tested : tstName name = 0
  room : ∃ fd r, vfFfreeOn p.before (dirVol p) (-1) (-1) p.fd name (newEntry name) = some (fd, r) ∧
    0 ≤ r.ret ∧ ∃ c, Fat.IsCluster p.d c ∧
      Fat.rawEntry p.d.toDmd (volumeAt p fd.entries.length).fat c = 0
  long : p.d.recsiz - 4 < pathLen link

section Undone

variable (p : Place) (hp : PlaceOk p)
include hp

theorem ffree_undone (name : List UInt8) (fd : Fd) (r : Ffree)
    (h : vfFfreeOn p.before (dirVol p) (-1) (-1) p.fd name (newEntry name) = some (fd, r)) :
    (∃ n, fd.entries = p.fd.entries ++ List.replicate n Entry.zero) ∧
      ∃ new, TakenBy p (volumeAt p fd.entries.length).fat new := by
  have hper : 0 < perCluster p.d := by
    have h6 := hp.cluster
    omega
  rcases grown_entries p hper fd.entries (vfFfreeOn_grown _ _ _ _ _ fd name _ r h) with ⟨k, hent,
    hk⟩
  refine ⟨⟨_, hent⟩, ?_⟩
  have hlen := congrArg List.length hent
  rw [List.length_append, List.length_replicate] at hlen
  rw [hlen]
  exact volumeAt_spec p hp k hk

omit hp in
theorem TakenBy.undone (fat : Fat.Sectors) (new : List Nat) (ret : Int) (fd : Fd)
    (h : TakenBy p fat new) (hent : ∃ n, fd.entries = p.fd.entries ++ List.replicate n Entry.zero) :
    Undone p ⟨ret, fat, fd⟩ :=
  ⟨⟨new, h.taken, fun c _ => h.free c⟩, hent⟩

theorem TakenBy.not_undone (fat : Fat.Sectors) (new : List Nat) (n : Nat) (r : Symlink)
    (h : TakenBy p fat new) (hn : Fat.IsCluster p.d n) (hfree : Fat.rawEntry p.d.toDmd fat n = 0)
    (hent : Fat.Entered p.d.toDmd fat r.fat n Fat.EOF) : ¬ Undone p r := by
  rintro ⟨⟨new', htaken, hraw⟩, -⟩
  have hused : n ∈ new' := by
    have hn0 : ¬ Fat.rawEntry p.d.toDmd r.fat n = 0 := fun h0 => ((hent.free n).mp h0).1 rfl
    refine Classical.byContradiction fun hnot =>
      hn0 ((hraw n hn).mpr ⟨((h.free n).mp hfree).1, hnot⟩)
  unfold Taken at htaken
  cases hlast : p.last with
  | none =>
    rw [hlast] at htaken
    rw [htaken] at hused
    exact List.not_mem_nil hused
  | some c =>
    rw [hlast] at htaken
    have hnew : n ∉ new := ((h.free n).mp hfree).2
    -- From a cluster of the directory the links lead to one of its own.
    have hsub : ∀ (l : List Nat) (a : Nat), a ∈ c :: new →
        List.IsChain (fun a b => Fat.link p.d.toDmd r.fat a = b) (a :: l) →
        (∀ b ∈ l, Fat.IsCluster p.d b) → ∀ b ∈ l, b ∈ new := by
      intro l
      induction l with
      | nil => exact fun a _ _ _ b hb => absurd hb List.not_mem_nil
      | cons b l ih =>
        intro a ha hchain hcl
        rw [List.isChain_cons_cons] at hchain
        have hb := hcl b List.mem_cons_self
        rcases Fat.cluster_ne_EOF hp.drive b hb with ⟨hbe, hb0⟩
        have han : a ≠ n := by
          rintro rfl
          rw [hent.link, Function.update_self] at hchain
          exact hbe hchain.1.symm
        rw [hent.link, Function.update_of_ne han, ← hent.link] at hchain
        have hbnew : b ∈ new := by
          rcases h.next c hlast a ha with hin | hend
          · rw [hchain.1] at hin
            exact hin
          · rw [hchain.1] at hend
            exact absurd hend hbe
        intro x hx
        rcases List.mem_cons.mp hx with rfl | hx
        · exact hbnew
        · exact ih b (List.mem_cons_of_mem c hbnew) hchain.2
            (fun y hy => hcl y (List.mem_cons_of_mem b hy)) x hx
    exact hnew (hsub new' c List.mem_cons_self htaken.1 htaken.2 n hused)

omit hp in
theorem undone_refl (ret : Int) : Undone p ⟨ret, p.v.fat, p.fd⟩ := by
  refine ⟨⟨[], ?_, fun c _ => ⟨fun h => ⟨h, List.not_mem_nil⟩, fun h => h.1⟩⟩,
    0, (List.append_nil _).symm⟩
  unfold Taken
  cases p.last with
  | none => rfl
  | some c => exact ⟨List.isChain_singleton c, fun b hb => absurd hb List.not_mem_nil⟩

theorem dirVol_roomy : Roomy (dirVol p) := by
  intro n k h
  replace h : dirExt p n = .ok k := h
  unfold dirExt at h
  cases hlast : p.last with
  | none =>
    rw [hlast] at h
    simp only [reduceCtorEq] at h
  | some c =>
    rw [hlast] at h
    simp only at h
    cases hg : grow p.d p.dd (p.v, c) ((n - p.fd.entries.length) / perCluster p.d + 1) with
    | error e =>
      rw [hg] at h
      simp only [reduceCtorEq] at h
    | ok s =>
      rw [hg] at h
      rw [← Except.ok.inj h]
      exact hp.cluster

theorem ffree_written (name : List UInt8) (fd : Fd) (r : Ffree) (dir : Entry)
    (h : vfFfreeOn p.before (dirVol p) (-1) (-1) p.fd name (newEntry name) = some (fd, r))
    (hret : 0 ≤ r.ret) :
    0 ≤ (pFseek fd (r.firstdirpos.getD 0)).2 ∧
      (vfCrnam (dirVol p) (pFseek fd (r.firstdirpos.getD 0)).1 dir r.longname).2 = 32 := by
  rcases vfFfree_gap _ _ (dirVol_roomy p hp) _ _ (by decide) _ _ _ _ _ h hret with
    ⟨j, hfirst, -, -, hroom, -⟩
  have hone : 1 ≤ dirsFor (dirVol p) name (newEntry name) := by
    unfold dirsFor
    split
    · exact Nat.le_add_left 1 _
    · exact Nat.le_refl 1
  have hseek : pFseek fd (32 * j) = ({ fd with fpos := 32 * j }, ((32 * j : Nat) : Int)) := by
    unfold pFseek
    rw [if_pos (by omega)]
  rw [hfirst, Option.getD_some, hseek]
  refine ⟨Int.natCast_nonneg _, vfCrnam_room (dirVol p) _ dir r.longname j rfl ?_⟩
  -- The long name takes the entries that the search has made room for.
  rw [(vfFfreeOn_loop _ _ _ _ _ _ _ _ _ h).1]
  unfold dirsFor at hroom
  by_cases hlong : ((dirVol p).d_flags && ext83 (newEntry name).name != name) = true
  · rw [if_pos hlong] at hroom ⊢
    exact hroom
  · rw [if_neg hlong] at hroom ⊢
    exact hroom

theorem Leaks.not_undone (name link : List UInt8) (h : Leaks p name link) :
    ¬ AllOrNothing p name link := by
  rcases h with ⟨hreopen, hsrch, htested, ⟨fd, r, hffree, hret, c, hc, hc0⟩, hlong⟩
  intro hall
  rcases (ffree_undone p hp name fd r hffree).2 with ⟨new, htaken⟩
  rcases fcre_cases p hp.drive (volumeAt p fd.entries.length) link r.newdir with
    ⟨hfull, -⟩ | ⟨n, hn, hfree, hent, herange, -⟩
  · exact hfull c hc hc0
  have hres : dxfsSymlink p name link =
      some ⟨ERANGE, (fcreSymlink p (volumeAt p fd.entries.length) link r.newdir).1.fat, fd⟩ := by
    unfold dxfsSymlink
    simp only [hreopen, hsrch, hffree]
    rw [if_neg (not_not_intro rfl), if_neg (not_not_intro htested), if_neg (by omega)]
    have herr := herange hlong
    generalize fcreSymlink p (volumeAt p fd.entries.length) link r.newdir = out at herr ⊢
    rcases out with ⟨v, res⟩
    rw [show res = .error ERANGE from herr]
  exact htaken.not_undone p hp _ new n _ hn hfree hent (hall _ hres (show ERANGE < 0 by decide))

theorem undone_of_not_leaks (name link : List UInt8) (h : ¬ Leaks p name link) :
    AllOrNothing p name link := by
  intro r hres hneg
  unfold dxfsSymlink at hres
  cases hreopen : p.reopen with
  | some doserr =>
    rw [hreopen] at hres
    rw [← Option.some.inj hres]
    exact undone_refl p doserr
  | none =>
    rw [hreopen] at hres
    cases hsrch : p.srch with
    | ok pos =>
      rw [hsrch] at hres
      rw [← Option.some.inj hres]
      exact undone_refl p Fat.EACCDN
    | error doserr =>
      rw [hsrch] at hres
      simp only at hres
      by_cases hfound : doserr ≠ EFILNF
      · rw [if_pos hfound] at hres
        rw [← Option.some.inj hres]
        exact undone_refl p doserr
      rw [if_neg hfound] at hres
      by_cases htested : tstName name ≠ 0
      · rw [if_pos htested] at hres
        rw [← Option.some.inj hres]
        exact undone_refl p EBADRQ
      rw [if_neg htested] at hres
      cases hffree : vfFfreeOn p.before (dirVol p) (-1) (-1) p.fd name (newEntry name) with
      | none =>
        rw [hffree] at hres
        simp only [reduceCtorEq] at hres
      | some out =>
        rcases out with ⟨fd, s⟩
        rw [hffree] at hres
        simp only at hres
        rcases ffree_undone p hp name fd s hffree with ⟨hent, new, htaken⟩
        by_cases hret : s.ret < 0
        · rw [if_pos hret] at hres
          rw [← Option.some.inj hres]
          exact htaken.undone p _ new _ fd hent
        rw [if_neg hret] at hres
        rcases fcre_cases p hp.drive (volumeAt p fd.entries.length) link s.newdir with
          ⟨hfull, hfat⟩ | ⟨n, hn, hfree, -, -, hfits⟩
        · generalize fcreSymlink p (volumeAt p fd.entries.length) link s.newdir = out at hres hfat
          rcases out with ⟨v, res⟩
          simp only at hfat
          cases res with
          | error doserr =>
            rw [← Option.some.inj hres]
            simp only [hfat]
            exact htaken.undone p _ new _ fd hent
          | ok dir =>
            rcases ffree_written p hp name fd s dir hffree (by omega) with ⟨hseek, hwrite⟩
            simp only at hres
            rw [if_neg (by omega), hwrite] at hres
            rw [← Option.some.inj hres] at hneg
            exact absurd (show (if (32 : Int) < 0 then (32 : Int) else 0) < 0 from hneg) (by decide)
        · -- The cluster was free, so the path fits, and the name is written.
          have hshort : pathLen link ≤ p.d.recsiz - 4 := by
            refine Nat.le_of_not_lt fun hlong => h ⟨hreopen, ?_, ?_,
              ⟨fd, s, hffree, by omega, n, hn, hfree⟩, hlong⟩
            · rw [hsrch, Classical.not_not.mp hfound]
            · exact Classical.not_not.mp htested
          rcases hfits hshort with ⟨dir, hdir⟩
          generalize fcreSymlink p (volumeAt p fd.entries.length) link s.newdir = out at hres hdir
          rcases out with ⟨v, res⟩
          simp only at hdir
          rcases ffree_written p hp name fd s dir hffree (by omega) with ⟨hseek, hwrite⟩
          simp only [hdir] at hres
          rw [if_neg (by omega), hwrite] at hres
          rw [← Option.some.inj hres] at hneg
          exact absurd (show (if (32 : Int) < 0 then (32 : Int) else 0) < 0 from hneg) (by decide)

/-- The error paths leave nothing behind if and only if no cluster was taken for a path that is
    too long. -/
theorem symlink_undone_iff (name link : List UInt8) :
    AllOrNothing p name link ↔ ¬ Leaks p name link :=
  ⟨fun hall hleaks => Leaks.not_undone p hp name link hleaks hall,
    undone_of_not_leaks p hp name link⟩

end Undone

/-- An empty drive with sectors of 512 bytes, whose root directory has one entry, which is free. -/
def rootPlace : Place where
  d := Fat.wordDrive 1 8
  v := ⟨fun _ _ => 0, -1, Fat.EOF, fun i => ⟨i, 0, 0, false, 0, 0, 0, 0, true⟩⟩
  d_flags := false
  dd := 0
  last := none
  fd := ⟨[Entry.zero], 0, 0⟩
  before := 0
  sp := 1
  dos_time := 0
  dos_date := 0
  reopen := none
  srch := .error EFILNF

/-- The entry is taken, and a root directory does not get longer. -/
def fullPlace : Place := { rootPlace with fd := ⟨[{ Entry.zero with head := 0x41 }], 0, 0⟩ }

theorem fullPlace_ok : PlaceOk fullPlace where
  drive := Fat.wordDrive_ok 1 8 (by decide) (by decide) (by decide) (by decide)
  cluster := by decide
  last := fun _ hc => by cases hc

theorem symlink_undone_full : AllOrNothing fullPlace [0x4c] (List.replicate 508 0x41) ∧
    (dxfsSymlink fullPlace [0x4c] (List.replicate 508 0x41)).map Symlink.ret = some Fat.EACCDN := by
  have hfull : (vfFfreeOn fullPlace.before (dirVol fullPlace) (-1) (-1) fullPlace.fd [0x4c]
      (newEntry [0x4c])).map (fun r => r.2.ret) = some Fat.EACCDN := by decide +kernel
  refine ⟨(symlink_undone_iff fullPlace fullPlace_ok [0x4c] _).mpr fun h => ?_, by decide +kernel⟩
  rcases h.room with ⟨fd, r, hfree, hret, -⟩
  rw [hfree] at hfull
  exact absurd (Option.some.inj hfull ▸ hret : 0 ≤ Fat.EACCDN) (by decide)

/-- A path of 508 characters does not fit into a sector of 512 bytes. -/
theorem cluster_left : ∃ r, dxfsSymlink rootPlace [0x4c] (List.replicate 508 0x41) = some r ∧
    r.ret = ERANGE ∧ ¬ Undone rootPlace r := by
  have hrun : (dxfsSymlink rootPlace [0x4c] (List.replicate 508 0x41)).map
      (fun r => (r.ret, Fat.rawEntry rootPlace.d.toDmd r.fat 2)) = some (ERANGE, 0xffff) := by
    decide +kernel
  rcases Option.map_eq_some_iff.mp hrun with ⟨r, hr, heq⟩
  rcases Prod.mk.inj heq with ⟨hret, hraw⟩
  refine ⟨r, hr, hret, ?_⟩
  rintro ⟨⟨new, htaken, hclusters⟩, -⟩
  -- The root directory has taken no cluster.
  have hnew : new = [] := htaken
  have hfree := (hclusters 2 ⟨Nat.le_refl 2, by decide⟩).mpr
    ⟨by decide +kernel, by rw [hnew]; exact List.not_mem_nil⟩
  rw [hraw] at hfree
  exact absurd hfree (by decide)

end Vfat

end MagiC
