import MagiC.Aes.Cursor

/-!
# The Cursor of a Text Field

The routine takes a text that begins with `@` for an empty one at every call, and not only when
the cursor is put into the field. So a user who types `@` at the beginning of a field has typed
something that is gone at the next key, and the cursor is behind the end of the text then.

As long as this does not happen, the text fits in and the cursor is in it, over whole runs.

## Main definitions

* `Ready`: What holds before a key.

## Theorems

* `typing_consistent`: A run without the exception.
-/

namespace MagiC

namespace Aes

namespace Edit

open Terminated

def fieldText (m : Mem) : List Byte :=
  if (cstr PTEXTLEN m).head? = some 0x40 then [] else cstr PTEXTLEN m

/-- The text fits in, the cursor is in it, and nothing else has been written. -/
structure Consistent (ted : Tedinfo) (start : Mem) (s : State) : Prop where
  short : strlen PTEXTLEN s.tePtext + 1 ≤ ted.teTxtlen
  didx_ge : 0 ≤ s.didx
  didx_le : s.didx ≤ (fieldText s.tePtext).length
  written : ∀ i, i < 0 ∨ ted.teTxtlen ≤ i → s.tePtext i = start i

/-- The text and the cursor are the same, whatever is behind the text. -/
structure Same (s t : State) : Prop where
  text : fieldText s.tePtext = fieldText t.tePtext
  didx : s.didx = t.didx
  inpOvwrmode : s.inpOvwrmode = t.inpOvwrmode
  scrap : s.scrap = t.scrap

def place (ted : Tedinfo) (didx : Int) : Int :=
  if (ted.teTxtlen : Int) - 2 < didx then didx - 1 else didx

/-- A character that is accepted is to the left of the cursor. -/
def Places (ted : Tedinfo) (s s' : State) : Call → Prop
  | .edChar key => objcTab.lookup key = none → key.toUInt8 ≠ 0 →
      ∀ k, isValid key.toUInt8 (ted.currPvalid (place ted s.didx)) = (true, k) →
        0 < s'.didx ∧ (fieldText s'.tePtext)[(s'.didx - 1).toNat]? = some k
  | _ => True

/-- Calls in a row, each with what is on the stack. -/
def run (ted : Tedinfo) (s : State) (calls : List (Mem × Call)) : State :=
  calls.foldl (fun s a => objcEdit ted a.1 s a.2) s

def AllMeet (ted : Tedinfo) : State → List (Mem × Call) → Prop
  | _, [] => True
  | s, a :: as => Meets ted s a.2 ∧ AllMeet ted (objcEdit ted a.1 s a.2) as

section

variable {ted : Tedinfo} {m : Mem} {t : List Byte} {n p : Nat} {c : Byte} {f : Field} {ovwr : Bool}
  {s : State}

theorem currPtext_holds (h : Holds m t) (hlen : t.length < PTEXTLEN) (stack : Mem) :
    Holds (currPtext stack m) (fieldText m) := by
  have hcopy : Holds (strcpy stack m) t := by
    refine h.congr fun i hi => ?_
    rw [strcpy, h.strlen hlen, if_pos ⟨by omega, by omega⟩]
  have hfirst : strcpy stack m 0 = t.getD 0 0 := hcopy.eq 0 (Nat.zero_le _)
  unfold currPtext fieldText
  rw [h.cstr hlen]
  dsimp only
  rw [hfirst]
  cases t with
  | nil =>
    rw [if_neg (by decide), if_neg (by decide)]
    exact hcopy
  | cons x t =>
    show Holds (if x = 0x40 then _ else _) (if some x = some 0x40 then _ else _)
    by_cases hx : x = 0x40
    · rw [if_pos hx, if_pos (congrArg some hx)]
      exact hcopy.cut (Nat.zero_le _)
    · rw [if_neg hx, if_neg fun hs => hx (Option.some.inj hs)]
      exact hcopy

theorem fieldText_head (m : Mem) : (fieldText m).head? ≠ some 0x40 := by
  unfold fieldText
  split
  · decide
  · rename_i h
    exact h

/-- The text and the cursor of the user. -/
def State.field (s : State) : Field := ⟨fieldText s.tePtext, s.didx.toNat⟩

/-- What holds before a key. -/
structure Ready (ted : Tedinfo) (s : State) : Prop where
  short : strlen PTEXTLEN s.tePtext + 1 ≤ ted.teTxtlen
  didx_ge : 0 ≤ s.didx
  didx_le : s.didx ≤ (fieldText s.tePtext).length

/-- What is on the stack when a key is looked at. -/
def State.ed (s : State) (ted : Tedinfo) (stack : Mem) : Ed :=
  ⟨currPtext stack s.tePtext, s.didx, txtposToTmpltpos ted s.didx⟩

theorem holds_short (h : strlen PTEXTLEN m + 1 ≤ ted.teTxtlen) :
    Holds m (cstr PTEXTLEN m) ∧ (cstr PTEXTLEN m).length + 1 ≤ ted.teTxtlen ∧
      (cstr PTEXTLEN m).length < PTEXTLEN := by
  have hn := ted.txtlen_le
  have hlen : (cstr PTEXTLEN m).length = strlen PTEXTLEN m := by
    rw [cstr, List.length_map, List.length_range]
  have hlt : strlen PTEXTLEN m < PTEXTLEN := by
    unfold PTEXTLEN at h ⊢
    omega
  exact ⟨holds_cstr hlt, by omega, by omega⟩

theorem fieldText_length (m : Mem) : (fieldText m).length ≤ (cstr PTEXTLEN m).length := by
  unfold fieldText
  split
  · exact Nat.zero_le _
  · exact Nat.le_refl _

theorem Ready.shows (h : Ready ted s) (stack : Mem) :
    Shows (s.ed ted stack) s.field ∧ s.field.Wf ted.teTxtlen := by
  rcases holds_short h.short with ⟨hholds, hshort, hlt⟩
  have hlen := fieldText_length s.tePtext
  have hge := h.didx_ge
  have hle := h.didx_le
  refine ⟨⟨currPtext_holds hholds hlt stack, ?_⟩, ?_, ?_⟩
  · show s.didx = (s.didx.toNat : Int)
    omega
  · show (fieldText s.tePtext).length + 1 ≤ ted.teTxtlen
    omega
  · show s.didx.toNat ≤ (fieldText s.tePtext).length
    omega

def Field.edChar (ted : Tedinfo) (ovwr : Bool) (scrap : List Byte) (key : UInt16) (f : Field) :
    Field :=
  let d3 := txtposToTmpltpos ted f.cursor
  match objcTab.lookup key with
  | none => (Field.input ted ovwr (f, d3) key.toUInt8).1
  | some k => f.control ted ovwr scrap d3 k

/-- What the field is after a key. -/
def State.next (s : State) (ted : Tedinfo) (key : UInt16) : Field :=
  s.field.edChar ted s.inpOvwrmode s.scrap key

theorem edChar_shows (h : Ready ted s) (htm : ted.tePtmplt.length + 512 ≤ 2 ^ 15) (stack : Mem)
    (key : UInt16) : (s.next ted key).Wf ted.teTxtlen ∧ ∃ e, Shows e (s.next ted key) ∧
      (edChar ted stack s key).tePtext = strcpy s.tePtext e.curr ∧
      (edChar ted stack s key).didx = e.didx := by
  rcases h.shows stack with ⟨hshow, hwf⟩
  have hn := ted.txtlen_le
  have hge := h.didx_ge
  have hd3 : (s.ed ted stack).d3 = txtposToTmpltpos ted s.field.cursor := by
    show txtposToTmpltpos ted s.didx = txtposToTmpltpos ted (s.didx.toNat : Int)
    rw [Int.toNat_of_nonneg hge]
  have hpos := txtposToTmpltpos_ge ted s.field.cursor
  rw [← hd3] at hpos
  have hw : ted.teTxtlen + (-(s.ed ted stack).d3).toNat + 256 + ted.tePtmplt.length ≤ 2 ^ 15 := by
    omega
  unfold State.next Field.edChar edChar
  dsimp only
  rw [← hd3]
  cases hk : objcTab.lookup key with
  | none =>
    have hinput := inputChar_shows s.inpOvwrmode key.toUInt8 hshow hwf (by omega)
    exact ⟨(hwf.input _ _ _ (by omega)).1, _, hinput.1, rfl, rfl⟩
  | some k =>
    exact ⟨hwf.control _ _ k hshow hw, _, control_shows _ _ k hshow hwf hw, rfl, rfl⟩

theorem typed_nonzero (scrap : List Byte) (key : UInt16) : 0 ∉ typed scrap key := by
  unfold typed
  split
  · split
    · exact List.not_mem_nil
    · rename_i hne
      exact fun h => hne (List.mem_singleton.mp h).symm
  · exact scrpPst_nonzero scrap
  · exact List.not_mem_nil

theorem next_clear (h : Ready ted s) (htm : ted.tePtmplt.length + 512 ≤ 2 ^ 15)
    (hm : ¬ PutsAt ted s key) : (s.next ted key).Clear := by
  have hwf := (h.shows fun _ => 0).2
  have hn := ted.txtlen_le
  have hge := h.didx_ge
  have hpos := txtposToTmpltpos_ge ted s.field.cursor
  have hhead : s.field.text.head? ≠ some 0x40 := fieldText_head s.tePtext
  -- What is typed in this step, by the cases of the condition.
  have htyping : ∀ cs, cs = typed s.scrap key → cs.length ≤ 256 →
      (cs.foldl (Field.input ted s.inpOvwrmode)
        (s.field, txtposToTmpltpos ted s.field.cursor)).1.Clear := by
    intro cs hcs hlen
    subst hcs
    unfold PutsAt at hm
    refine typing_clear hwf hhead (typed_nonzero s.scrap key) (fun h2 => ?_)
      (fun h2 h0 => ?_) (by omega)
    · rw [if_pos h2] at hm
      exact hm
    · rw [if_neg h2] at hm
      have hz : s.didx = 0 := by
        have h0 : s.didx.toNat = 0 := h0
        omega
      rw [h0]
      exact fun hfirst => hm ⟨hz, hfirst⟩
  unfold State.next Field.edChar
  dsimp only
  cases hk : objcTab.lookup key with
  | none =>
    have htyped : typed s.scrap key = if key.toUInt8 = 0 then [] else [key.toUInt8] := by
      rw [typed, hk]
    by_cases h0 : key.toUInt8 = 0
    · dsimp only
      rw [Field.input, if_pos h0]
      exact fun hat => absurd hat hhead
    · rw [if_neg h0] at htyped
      exact htyping _ htyped.symm (by decide : 1 ≤ 256)
  | some k =>
    refine control_clear s.scrap k hhead fun hpaste => ?_
    subst hpaste
    have htyped : typed s.scrap key = scrpPst s.scrap := by
      rw [typed, hk]
    exact htyping _ htyped.symm (scrpPst_length s.scrap)

theorem strcpy_spec {src : Mem} (dst : Mem) (h : Holds src t) (hlen : t.length < PTEXTLEN) :
    Holds (strcpy dst src) t ∧
      ∀ i, i < 0 ∨ (t.length : Int) < i → strcpy dst src i = dst i := by
  constructor
  · refine h.congr fun i hi => ?_
    rw [strcpy, h.strlen hlen, if_pos ⟨by omega, by omega⟩]
  · intro i hi
    rw [strcpy, h.strlen hlen, if_neg (by omega)]

/-- What a key does. The text is the one of the field, or empty if it begins with `@`. -/
theorem edChar_spec (h : Ready ted s) (htm : ted.tePtmplt.length + 512 ≤ 2 ^ 15) (stack : Mem)
    (key : UInt16) :
    (edChar ted stack s key).didx = (s.next ted key).cursor ∧
    fieldText (edChar ted stack s key).tePtext =
      (if (s.next ted key).text.head? = some 0x40 then [] else (s.next ted key).text) ∧
    strlen PTEXTLEN (edChar ted stack s key).tePtext + 1 ≤ ted.teTxtlen ∧
    ∀ i, i < 0 ∨ ted.teTxtlen ≤ i → (edChar ted stack s key).tePtext i = s.tePtext i := by
  rcases edChar_shows h htm stack key with ⟨hwf, e, hshow, htext, hdidx⟩
  have hn := ted.txtlen_le
  have hs := hwf.short
  have hlt : (s.next ted key).text.length < PTEXTLEN := by
    unfold PTEXTLEN
    omega
  rcases strcpy_spec s.tePtext hshow.holds hlt with ⟨hholds, hkeep⟩
  rw [htext, hdidx, fieldText, hholds.cstr hlt, hholds.strlen hlt]
  exact ⟨hshow.didx, rfl, hs, fun i hi => hkeep i (by omega)⟩

theorem edInit_spec (stack : Mem) (hs : strlen PTEXTLEN s.tePtext + 1 ≤ ted.teTxtlen) :
    0 ≤ (edInit ted stack s).didx ∧
      (edInit ted stack s).didx ≤ (fieldText s.tePtext).length ∧
      ∀ s' stack', fieldText s.tePtext = fieldText s'.tePtext →
        strlen PTEXTLEN s'.tePtext + 1 ≤ ted.teTxtlen →
        (edInit ted stack s).didx = (edInit ted stack' s').didx := by
  have hlen : ∀ (u : State) (st : Mem), strlen PTEXTLEN u.tePtext + 1 ≤ ted.teTxtlen →
      strlen PTEXTLEN (currPtext st u.tePtext) = (fieldText u.tePtext).length := by
    intro u st hu
    rcases holds_short hu with ⟨hholds, hshort, hlt⟩
    have htext := fieldText_length u.tePtext
    exact (currPtext_holds hholds hlt st).strlen (by omega)
  unfold edInit
  dsimp only
  rw [hlen s stack hs]
  refine ⟨?_, ?_, fun s' stack' htext hs' => ?_⟩
  · split
    · omega
    · split
      · omega
      · omega
  · split
    · omega
    · split
      · omega
      · omega
  · rw [hlen s' stack' hs', htext]

/-- A step keeps what holds before a key, and writes into the room of the text only. -/
theorem step_ready {call : Call} (h : Ready ted s) (htm : ted.tePtmplt.length + 512 ≤ 2 ^ 15)
    (stack : Mem) (hm : Meets ted s call) : Ready ted (objcEdit ted stack s call) ∧
      ∀ i, i < 0 ∨ ted.teTxtlen ≤ i → (objcEdit ted stack s call).tePtext i = s.tePtext i := by
  cases call with
  | edInit =>
    rcases edInit_spec stack h.short with ⟨hge, hle, -⟩
    exact ⟨⟨h.short, hge, hle⟩, fun _ _ => rfl⟩
  | edChar key =>
    rcases edChar_spec h htm stack key with ⟨hdidx, htext, hshort, hkeep⟩
    have hclear := next_clear h htm hm
    have hwf := (edChar_shows h htm stack key).1
    refine ⟨⟨hshort, ?_, ?_⟩, hkeep⟩
    · show 0 ≤ (edChar ted stack s key).didx
      rw [hdidx]
      omega
    · show (edChar ted stack s key).didx ≤ (fieldText (edChar ted stack s key).tePtext).length
      rw [hdidx, htext]
      have hcur := hwf.cursor
      split
      · rename_i hat
        rw [hclear hat]
        exact Int.le_refl 0
      · omega
  | scrap text => exact ⟨⟨h.short, h.didx_ge, h.didx_le⟩, fun _ _ => rfl⟩

theorem put_at (ovwr : Bool) (c : Byte) (hp : p ≤ f.text.length) (hn : p + 2 ≤ n) :
    (f.put n ovwr p c).text[p]? = some c := by
  unfold Field.put
  split
  · rename_i hin
    exact List.getElem?_set_self hin.2
  · show ((f.text.insertIdx p c).take (n - 1))[p]? = some c
    rw [List.getElem?_take_of_lt (by omega), List.getElem?_insertIdx_self, if_pos hp]

theorem step_places {call : Call} (h : Ready ted s) (htm : ted.tePtmplt.length + 512 ≤ 2 ^ 15)
    (stack : Mem) (hm : Meets ted s call) : Places ted s (objcEdit ted stack s call) call := by
  cases call with
  | edInit => exact trivial
  | scrap text => exact trivial
  | edChar key =>
    intro hk hkey k hv
    rcases edChar_spec h htm stack key with ⟨hdidx, htext, -, -⟩
    have hclear := next_clear h htm hm
    have hwf := (h.shows stack).2
    have hge := h.didx_ge
    rcases hwf.place with ⟨hp, hroom⟩
    have hplace : place ted s.didx = s.field.place ted := by
      have hcur : (s.field.cursor : Int) = s.didx := Int.toNat_of_nonneg hge
      unfold place Field.place
      split
      · rw [if_pos (by omega)]
        have hn := ted.txtlen_ge
        omega
      · rw [if_neg (by omega)]
        exact hcur.symm
    have hnext : s.next ted key = s.field.put ted.teTxtlen s.inpOvwrmode (s.field.place ted) k := by
      unfold State.next Field.edChar
      dsimp only
      rw [hk]
      dsimp only
      rw [Field.input, if_neg hkey]
      dsimp only
      rw [← hplace, hv]
      rfl
    have hcur : (s.next ted key).cursor = s.field.place ted + 1 := by
      rw [hnext, Field.put]
      split
      · rfl
      · rfl
    have hnone : (s.next ted key).text.head? ≠ some 0x40 := by
      intro hat
      have hzero := hclear hat
      omega
    show 0 < (edChar ted stack s key).didx ∧
      (fieldText (edChar ted stack s key).tePtext)[((edChar ted stack s key).didx - 1).toNat]? =
        some k
    have hback : (((s.field.place ted + 1 : Nat) : Int) - 1).toNat = s.field.place ted := by omega
    rw [htext, if_neg hnone, hdidx, hcur, hback, hnext]
    exact ⟨by omega, put_at _ _ hp hroom⟩

/-- What is behind the text does not count. -/
theorem step_same {call : Call} {s' : State} (h : Ready ted s)
    (htm : ted.tePtmplt.length + 512 ≤ 2 ^ 15) (hs : strlen PTEXTLEN s'.tePtext + 1 ≤ ted.teTxtlen)
    (hsame : Same s s') (stack stack' : Mem) :
    Same (objcEdit ted stack s call) (objcEdit ted stack' s' call) := by
  have h' : Ready ted s' := ⟨hs, hsame.didx ▸ h.didx_ge, hsame.didx ▸ hsame.text ▸ h.didx_le⟩
  cases call with
  | edInit =>
    have hinit := (edInit_spec stack h.short).2.2 s' stack' hsame.text hs
    exact ⟨hsame.text, hinit, hsame.inpOvwrmode, hsame.scrap⟩
  | scrap text => exact ⟨hsame.text, hsame.didx, hsame.inpOvwrmode, rfl⟩
  | edChar key =>
    have hfield : s.field = s'.field := by
      rw [State.field, State.field, hsame.text, hsame.didx]
    have hnext : s.next ted key = s'.next ted key := by
      rw [State.next, State.next, hfield, hsame.inpOvwrmode, hsame.scrap]
    rcases edChar_spec h htm stack key with ⟨hdidx, htext, -, -⟩
    rcases edChar_spec h' htm stack' key with ⟨hdidx', htext', -, -⟩
    have hcurr : ∀ u (st : Mem), Ready ted u →
        cstr PTEXTLEN (currPtext st u.tePtext) = u.field.text ∧
          strlen PTEXTLEN (currPtext st u.tePtext) = u.field.text.length := by
      intro u st hu
      rcases hu.shows st with ⟨hshow, hwf⟩
      have hn := ted.txtlen_le
      have hshort := hwf.short
      have hlt : u.field.text.length < PTEXTLEN := by
        unfold PTEXTLEN
        omega
      exact ⟨hshow.holds.cstr hlt, hshow.holds.strlen hlt⟩
    have hscrap : ∀ k, scrapAfter (currPtext stack s.tePtext) s.scrap k =
        scrapAfter (currPtext stack' s'.tePtext) s'.scrap k := by
      intro k
      unfold scrapAfter
      rw [(hcurr s stack h).1, (hcurr s stack h).2, (hcurr s' stack' h').1,
        (hcurr s' stack' h').2, hfield, hsame.scrap]
    refine ⟨by show fieldText (edChar ..).tePtext = fieldText (edChar ..).tePtext
               rw [htext, htext', hnext], by
               show (edChar ..).didx = (edChar ..).didx
               rw [hdidx, hdidx', hnext], ?_, ?_⟩
    · show (edChar ted stack s key).inpOvwrmode = (edChar ted stack' s' key).inpOvwrmode
      unfold edChar
      dsimp only
      cases objcTab.lookup key with
      | none => exact hsame.inpOvwrmode
      | some k => exact congrArg (fun b => ovwrAfter b k) hsame.inpOvwrmode
    · show (edChar ted stack s key).scrap = (edChar ted stack' s' key).scrap
      unfold edChar
      dsimp only
      cases objcTab.lookup key with
      | none => exact hsame.scrap
      | some k => exact hscrap k

theorem run_ready {calls : List (Mem × Call)} (h : Ready ted s)
    (htm : ted.tePtmplt.length + 512 ≤ 2 ^ 15) (hm : AllMeet ted s calls) :
    Ready ted (run ted s calls) ∧
      ∀ i, i < 0 ∨ ted.teTxtlen ≤ i → (run ted s calls).tePtext i = s.tePtext i := by
  induction calls generalizing s with
  | nil => exact ⟨h, fun _ _ => rfl⟩
  | cons a calls ih =>
    rcases hm with ⟨hmeet, hm⟩
    rcases step_ready h htm a.1 hmeet with ⟨hready, hkeep⟩
    rcases ih hready hm with ⟨hrun, hrest⟩
    exact ⟨hrun, fun i hi => (hrest i hi).trans (hkeep i hi)⟩

end

/-- The text and the cursor stay consistent in a run in which no `@` is put at the beginning of
    the text. A character that is accepted is to the left of the cursor, and what is behind the
    text does not count. -/
theorem typing_consistent (ted : Tedinfo) (s : State) (calls : List (Mem × Call))
    (htm : ted.tePtmplt.length + 512 ≤ 2 ^ 15) (hshort : strlen PTEXTLEN s.tePtext < ted.teTxtlen)
    (hstart : (0 ≤ s.didx ∧ s.didx ≤ (fieldText s.tePtext).length) ∨
      (calls.head?.map Prod.snd) = some .edInit)
    (hm : AllMeet ted s calls) :
    Consistent ted s.tePtext (run ted s calls) ∧
      ∀ stack call, Meets ted (run ted s calls) call →
        Places ted (run ted s calls) (objcEdit ted stack (run ted s calls) call) call ∧
        ∀ s' stack', Same (run ted s calls) s' → strlen PTEXTLEN s'.tePtext < ted.teTxtlen →
          Same (objcEdit ted stack (run ted s calls) call) (objcEdit ted stack' s' call) := by
  have hrun : Ready ted (run ted s calls) ∧
      ∀ i, i < 0 ∨ ted.teTxtlen ≤ i → (run ted s calls).tePtext i = s.tePtext i := by
    rcases hstart with hcur | hinit
    · exact run_ready ⟨hshort, hcur.1, hcur.2⟩ htm hm
    · -- The first call puts the cursor into the text, wherever it was.
      cases calls with
      | nil => cases hinit
      | cons a calls =>
        rcases a with ⟨stack, call⟩
        cases Option.some.inj hinit
        rcases edInit_spec stack hshort with ⟨hge, hle, -⟩
        exact run_ready (s := edInit ted stack s) ⟨hshort, hge, hle⟩ htm hm.2
  rcases hrun with ⟨hready, hkeep⟩
  refine ⟨⟨hready.short, hready.didx_ge, hready.didx_le, hkeep⟩, fun stack call hmeet => ?_⟩
  exact ⟨step_places hready htm stack hmeet,
    fun s' stack' hsame hs => step_same hready htm hs hsame stack stack'⟩

/-- A field for three characters of any kind. -/
def anyField : Tedinfo :=
  ⟨[0x5f, 0x5f, 0x5f], [0x58], 4, none, fun _ => 0, by decide, by decide, by decide, by decide,
    by decide +kernel⟩

/-- The characters `a` and `@` are typed. -/
theorem typing_consistent_demo : Consistent anyField (fun _ => 0)
    (run anyField ⟨fun _ => 0, 0, false, []⟩ [(fun _ => 0x2a, .edInit),
      (fun _ => 0x2a, .edChar 0x1e61), (fun _ => 0x2a, .edChar 0x1a40)]) :=
  (typing_consistent anyField ⟨fun _ => 0, 0, false, []⟩ [(fun _ => 0x2a, .edInit),
    (fun _ => 0x2a, .edChar 0x1e61), (fun _ => 0x2a, .edChar 0x1a40)] (by decide)
    (by decide +kernel) (.inr rfl)
    ⟨trivial, by decide +kernel, by decide +kernel, trivial⟩).1

/-- When `@` is typed first it is gone after the next character, and the cursor is behind the
    end of the text. -/
theorem at_loses_text : ∃ s, s = run anyField ⟨fun _ => 0, 0, false, []⟩
    [(fun _ => 0x2a, .edInit), (fun _ => 0x2a, .edChar 0x1a40), (fun _ => 0x2a, .edChar 0x3062)] ∧
      fieldText s.tePtext = [0x62] ∧ s.didx = 2 ∧ ¬ Consistent anyField (fun _ => 0) s := by
  refine ⟨_, rfl, by decide +kernel, by decide +kernel, fun h => ?_⟩
  have hle := h.didx_le
  revert hle
  decide +kernel

end Edit

end Aes

end MagiC
