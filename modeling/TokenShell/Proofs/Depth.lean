import Mathlib.Algebra.BigOperators.Group.List.Basic
import Mathlib.Algebra.Ring.Int.Defs
import TokenShell.Proofs.Lexemes
import TokenShell.Proofs.Nesting

/-! The depth of a line counts its tokens. Every byte of the line stands inside a quoted value or
outside by the grammar as it does for the scanner, so that no byte of a value counts. -/
namespace TokenShell

namespace Token

/-- What a token adds to the number of unmatched openers. -/
def nesting (tok : Token) : Int :=
  match tok.kind with
  | .marker m => Line.nesting m.byte
  | _ => 0

theorem ofName?_of_kind {tok : Token} {m : Marker} (h : tok.kind = .marker m) :
    Marker.ofName? tok.name = some m := by
  unfold kind kindOf at h
  split at h
  · next hm =>
    cases h
    exact hm
  · cases h
  · cases h
  · repeat' split at h
    all_goals cases h

/-- Whether the token is an opening marker. -/
def isOpener (t : Token) : Bool :=
  match t.kind with
  | .marker m => m.isOpener
  | _ => false

/-- Whether the token is a closing marker. -/
def isCloser (t : Token) : Bool :=
  match t.kind with
  | .marker m => m.isCloser
  | _ => false

theorem nesting_eq (t : Token) :
    t.nesting = (if t.isOpener then 1 else 0) - (if t.isCloser then 1 else 0) := by
  unfold nesting isOpener isCloser
  cases t.kind with
  | marker m => cases m <;> rfl
  | _ => rfl

theorem sum_nesting (ts : List Token) :
    (ts.map nesting).sum = (ts.countP isOpener : Int) - ts.countP isCloser := by
  induction ts with
  | nil => rfl
  | cons t ts ih =>
    rw [List.map_cons, List.sum_cons, ih, nesting_eq, List.countP_cons, List.countP_cons]
    push_cast
    omega

end Token

namespace Quoting

variable {b : UInt8}

/-- What the rest of a line adds to the depth. -/
def depthFrom (q : Quoting) : Bytes → Int
  | [] => 0
  | b :: bs => (if (q.step b).inValue then 0 else Line.nesting b) + (q.step b).depthFrom bs

/-- Inside a value, and past its opening quote. -/
def within : Quoting := { inside := true }

theorem foldl_trace (q : Quoting) (line : Bytes) (d : Int) :
    (q.trace line).foldl (fun d p => if p.2.inValue then d else d + Line.nesting p.1) d =
      d + q.depthFrom line := by
  induction line generalizing q d with
  | nil => exact (Int.add_zero d).symm
  | cons b line ih =>
    rw [trace, List.foldl_cons, ih, depthFrom]
    dsimp only
    split
    · rw [Int.zero_add]
    · exact Int.add_assoc _ _ _

theorem step_plain (hb : b ≠ quote) : ({} : Quoting).step b = {} := by
  simp [step, hb]

theorem step_opening : ({} : Quoting).step quote = within := by
  decide

theorem step_within (hq : b ≠ quote) (hs : b ≠ backslash) : within.step b = within := by
  simp [step, within, hq, hs]

theorem step_escape : within.step backslash = ⟨true, true, false, true⟩ := by
  decide

theorem step_escaped (b : UInt8) : (⟨true, true, false, true⟩ : Quoting).step b = within := rfl

theorem step_closing : within.step quote = ⟨false, false, true, false⟩ := by
  decide

/-- Every byte of a text, and whether it belongs to a value for the scanner. -/
def standing (q : Quoting) (bs : Bytes) : List (UInt8 × Bool) :=
  (q.trace bs).map fun p => (p.1, p.2.inValue)

theorem standing_cons (q : Quoting) (b : UInt8) (bs : Bytes) :
    q.standing (b :: bs) = (b, (q.step b).inValue) :: (q.step b).standing bs := rfl

theorem standing_eq (q : Quoting) (bs : Bytes) :
    q.standing bs = standing { inside := q.inside, escaped := q.escaped } bs := by
  cases bs <;> rfl

theorem standing_plain (hb : b ≠ quote) (bs : Bytes) :
    standing {} (b :: bs) = (b, false) :: standing {} bs := by
  rw [standing_cons, step_plain hb]
  rfl

theorem standing_within (hq : b ≠ quote) (hs : b ≠ backslash) (bs : Bytes) :
    within.standing (b :: bs) = (b, true) :: within.standing bs := by
  rw [standing_cons, step_within hq hs]
  rfl

theorem standing_escaped (b : UInt8) (bs : Bytes) :
    within.standing (backslash :: b :: bs) =
      (backslash, true) :: (b, true) :: within.standing bs := by
  rw [standing_cons, step_escape, standing_cons, step_escaped]
  rfl

theorem standing_closing (bs : Bytes) :
    within.standing (quote :: bs) = (quote, true) :: standing {} bs := by
  rw [standing_cons, step_closing, standing_eq]
  rfl

/-- The depth adds up what the bytes outside values count for. -/
theorem depthFrom_standing (q : Quoting) (bs : Bytes) :
    q.depthFrom bs = (((q.standing bs).filter (!·.2)).map (Line.nesting ·.1)).sum := by
  induction bs generalizing q with
  | nil => rfl
  | cons b bs ih =>
    rw [depthFrom, standing_cons, ih]
    by_cases hv : (q.step b).inValue = true
    · simp [hv]
    · simp [hv]

end Quoting

namespace Line

variable {line name : Bytes} {l : Lexeme} {ls : List Lexeme} {body : List Piece} {ts : List Token}

/-- The bytes of a lexeme, and whether each of them belongs to a value: those from the opening quote
to the closing one do, with all escapes between them, and no others. -/
def Lexeme.standing : Lexeme → List (UInt8 × Bool)
  | blank b => [(b, false)]
  | marker m => [(m.byte, false)]
  | bare name => name.map (·, false)
  | valued name body => (name ++ [0x3a]).map (·, false) ++
      (Quoting.quote :: (body.flatMap Piece.text ++ [Quoting.quote])).map (·, true)

theorem standing_outside (h : ∀ b ∈ name, b ≠ Quoting.quote) (rest : Bytes) :
    Quoting.standing {} (name ++ rest) = name.map (·, false) ++ Quoting.standing {} rest := by
  induction name with
  | nil => rfl
  | cons b name ih =>
    obtain ⟨hb, hname⟩ := List.forall_mem_cons.mp h
    rw [List.cons_append, Quoting.standing_plain hb, ih hname]
    rfl

theorem standing_body (h : ∀ p ∈ body, p.Fits) (rest : Bytes) :
    Quoting.within.standing (body.flatMap Piece.text ++ rest) =
      (body.flatMap Piece.text).map (·, true) ++ Quoting.within.standing rest := by
  induction body with
  | nil => rfl
  | cons p body ih =>
    obtain ⟨hp, hbody⟩ := List.forall_mem_cons.mp h
    rw [List.flatMap_cons, List.append_assoc, List.map_append, List.append_assoc, ← ih hbody]
    cases p with
    | plain b => exact Quoting.standing_within hp.1 hp.2 _
    | escaped b => exact Quoting.standing_escaped b _

theorem Lexeme.Name.ne_quote (h : Lexeme.Name name) : ∀ b ∈ name, b ≠ Quoting.quote := by
  intro b hb
  exact (isNameByte_apart (h.isNameByte b hb)).2.2.2

/-- The scanner finds the bytes of a lexeme where the grammar has them. -/
theorem standing_lexeme (h : l.Fits) (rest : Bytes) :
    Quoting.standing {} (l.text ++ rest) = l.standing ++ Quoting.standing {} rest := by
  cases l with
  | blank b =>
    apply Quoting.standing_plain
    rintro rfl
    exact absurd h (by decide)
  | marker m =>
    apply Quoting.standing_plain
    cases m <;> decide
  | bare name => exact standing_outside (Lexeme.Name.ne_quote h) rest
  | valued name body =>
    have hfront : ∀ b ∈ name ++ [0x3a], b ≠ Quoting.quote := by
      intro b hb
      rcases List.mem_append.mp hb with hb | hb
      · exact h.1.ne_quote b hb
      · rw [List.mem_singleton.mp hb]
        decide
    have htext : (Lexeme.valued name body).text ++ rest =
        name ++ [0x3a] ++ Quoting.quote :: (body.flatMap Piece.text ++ Quoting.quote :: rest) := by
      simp [Lexeme.text, Lexeme.quotation]
    rw [htext, standing_outside hfront, Quoting.standing_cons, Quoting.step_opening,
      standing_body h.2, Quoting.standing_closing]
    simp [Lexeme.standing, Quoting.inValue, Quoting.within]

theorem standing_lexemes (h : ∀ l ∈ ls, l.Fits) :
    Quoting.standing {} (ls.flatMap Lexeme.text) = ls.flatMap Lexeme.standing := by
  induction ls with
  | nil => rfl
  | cons l ls ih =>
    obtain ⟨hl, hls⟩ := List.forall_mem_cons.mp h
    rw [List.flatMap_cons, List.flatMap_cons, standing_lexeme hl, ih hls]

theorem depth_eq (line : Bytes) : depth line = Quoting.depthFrom {} line := by
  rw [depth, Quoting.foldl_trace, Int.zero_add]

theorem nesting_eq_zero {b : UInt8} (h : isMarker b = false) : nesting b = 0 := by
  have hb : Marker.ofByte? b = none := by simpa [isMarker] using h
  simp [nesting, isOpenMarker, isCloseMarker, hb]

theorem sum_nesting_name (h : Lexeme.Name name) : (name.map nesting).sum = 0 := by
  apply List.sum_eq_zero
  intro n hn
  obtain ⟨b, hb, rfl⟩ := List.mem_map.mp hn
  exact nesting_eq_zero (isNameByte_apart (h.isNameByte b hb)).2.1

theorem nesting_name (h : Lexeme.Name name) (value : Bytes) : Token.nesting ⟨name, value⟩ = 0 := by
  have hnone : Marker.ofName? name = none := by
    cases name with
    | nil => rfl
    | cons b name =>
      cases name with
      | nil =>
        have hmark := (isNameByte_apart (h.isNameByte b (by simp))).2.1
        change Marker.ofByte? b = none
        simpa [isMarker] using hmark
      | cons c name => rfl
  unfold Token.nesting
  split
  · next m hk => cases hnone.symm.trans (Token.ofName?_of_kind hk)
  · rfl

/-- Of the bytes of a lexeme only a marker counts, since those of a value stand inside. -/
theorem sum_standing (h : l.Fits) :
    ((l.standing.filter (!·.2)).map (nesting ·.1)).sum = (l.token?.map Token.nesting).getD 0 := by
  cases l with
  | blank b =>
    have hmark : isMarker b = false := by
      by_contra hm
      obtain ⟨m, rfl⟩ := exists_marker (by simpa using hm)
      exact absurd h (by cases m <;> decide)
    simp [Lexeme.standing, Lexeme.token?, nesting_eq_zero hmark]
  | marker m => simp [Lexeme.standing, Lexeme.token?, Token.nesting, Token.kind_ofMarker]
  | bare name =>
    simp [Lexeme.standing, Lexeme.token?, nesting_name h, List.filter_map, Function.comp_def,
      sum_nesting_name h]
  | valued name body =>
    have hcolon : nesting 0x3a = 0 := by decide
    simp [Lexeme.standing, Lexeme.token?, nesting_name h.1, List.filter_map, Function.comp_def,
      sum_nesting_name h.1, hcolon]

/-- A lexeme counts as its token does. -/
theorem depthFrom_lexeme (h : l.Fits) (rest : Bytes) :
    Quoting.depthFrom {} (l.text ++ rest) =
      (l.token?.map Token.nesting).getD 0 + Quoting.depthFrom {} rest := by
  rw [Quoting.depthFrom_standing, standing_lexeme h, List.filter_append, List.map_append,
    List.sum_append, sum_standing h, ← Quoting.depthFrom_standing]

theorem depthFrom_lexemes (h : ∀ l ∈ ls, l.Fits) (rest : Bytes) :
    Quoting.depthFrom {} (ls.flatMap Lexeme.text ++ rest) =
      ((ls.filterMap Lexeme.token?).map Token.nesting).sum + Quoting.depthFrom {} rest := by
  induction ls with
  | nil => exact (Int.zero_add _).symm
  | cons l ls ih =>
    obtain ⟨hl, hls⟩ := List.forall_mem_cons.mp h
    rw [List.flatMap_cons, List.append_assoc, depthFrom_lexeme hl, ih hls, ← Int.add_assoc]
    cases ht : l.token? <;> simp [ht]

/-- A line that is read leaves no value open, and counts as its tokens do whatever follows it. -/
theorem depth_tokenize_append (h : tokenize line = .ok ts) (rest : Bytes) :
    depth (line ++ rest) = (ts.map Token.nesting).sum + depth rest := by
  have hspelt : Pending.Spelt .between [] := rfl
  obtain ⟨ls, ⟨hfits, -⟩, hspells, rfl⟩ := hspelt.read trivial h
  rw [List.nil_append] at hspells
  rw [depth_eq, depth_eq, ← hspells, depthFrom_lexemes hfits]

/-- The depth of a line that is read is that of its tokens. -/
theorem depth_tokenize (h : tokenize line = .ok ts) : depth line = (ts.map Token.nesting).sum := by
  have hnil : depth [] = 0 := rfl
  have happend := depth_tokenize_append h []
  rwa [List.append_nil, hnil, Int.add_zero] at happend

/-- Lines that are read into the same tokens have the same depth. -/
theorem depth_congr {line' : Bytes} (h : tokenize line = .ok ts) (h' : tokenize line' = .ok ts) :
    depth line' = depth line := by
  rw [depth_tokenize h, depth_tokenize h']

/-- The depth of a line that is read is the number of openers among its tokens less that of closers,
since the scanner and the grammar agree on what is inside a value. -/
theorem depth_counts_tokens (h : tokenize line = .ok ts) :
    depth line = (ts.countP Token.isOpener : Int) - ts.countP Token.isCloser ∧
    depth line = depth (format ts) ∧
    ∃ ls, Reading ls line ts ∧
      (Quoting.trace {} line).map (fun p => (p.1, p.2.inValue)) = ls.flatMap Lexeme.standing ∧
      depth line = (((ls.flatMap Lexeme.standing).filter (!·.2)).map (nesting ·.1)).sum := by
  have hsound : Pending.Sound .between := trivial
  have hspelt : Pending.Spelt .between [] := rfl
  have hback : tokenize (format ts) = .ok ts := reads_format (hsound.read h) 0
  obtain ⟨ls, hls⟩ := hspelt.read trivial h
  rw [List.nil_append] at hls
  have hstanding : Quoting.standing {} line = ls.flatMap Lexeme.standing := by
    rw [← hls.spells, standing_lexemes hls.fits]
  refine ⟨?_, (depth_congr h hback).symm, ls, hls, hstanding, ?_⟩
  · rw [depth_tokenize h, Token.sum_nesting]
  · rw [depth_eq, Quoting.depthFrom_standing, hstanding]

/-- Markers right behind an opening quote, behind an escape and before a closing quote, and others
that are tokens and stand next to a quote. -/
theorem depth_counts_tokens_quotedMarkers :
    let line := Bytes.ofString "(exp ID:'(\\')'INT:'\x7b'\x7b[;"
    let ts : List Token :=
      [⟨"(", []⟩, ⟨"exp", []⟩, ⟨"ID", "(')"⟩, ⟨"INT", "\x7b"⟩, ⟨"\x7b", []⟩, ⟨"[", []⟩, ⟨";", []⟩]
    tokenize line = .ok ts ∧ depth line = 3 ∧ ts.countP Token.isOpener = 3 ∧
      depth (format ts) = 3 ∧ ∃ ls, Reading ls line ts ∧
        (Quoting.trace {} line).map (fun p => (p.1, p.2.inValue)) = ls.flatMap Lexeme.standing := by
  intro line ts
  have hread : tokenize line = .ok ts := by decide +kernel
  have hopeners : ts.countP Token.isOpener = 3 := by decide +kernel
  have hclosers : ts.countP Token.isCloser = 0 := by decide +kernel
  obtain ⟨hcount, hformat, ls, hls, hstanding, -⟩ := depth_counts_tokens hread
  rw [hopeners, hclosers] at hcount
  exact ⟨hread, hcount, hopeners, hformat ▸ hcount, ls, hls, hstanding⟩

end Line

end TokenShell
