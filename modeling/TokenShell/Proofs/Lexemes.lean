import Mathlib.Data.List.Chain
import TokenShell.Proofs.Writing

/-! The grammar of token lines. A line is read exactly if lexemes spell it, into the tokens that
these mean, and no line is spelt in two ways. -/
namespace TokenShell.Line

/-- A piece of a value between its quotes: a byte that stands for itself, or any byte behind a
backslash. -/
inductive Piece where
  | plain (b : UInt8)
  | escaped (b : UInt8)
  deriving Repr, DecidableEq

namespace Piece

def byte : Piece → UInt8
  | plain b | escaped b => b

def text : Piece → Bytes
  | plain b => [b]
  | escaped b => [Quoting.backslash, b]

/-- A quote and a backslash do not stand for themselves. -/
def Fits : Piece → Prop
  | plain b => b ≠ Quoting.quote ∧ b ≠ Quoting.backslash
  | escaped _ => True

instance : DecidablePred Fits := fun
  | plain _ => inferInstanceAs (Decidable (_ ∧ _))
  | escaped _ => inferInstanceAs (Decidable True)

end Piece

/-- A part of a line. -/
inductive Lexeme where
  | blank (b : UInt8)
  | marker (m : Marker)
  | bare (name : Bytes)
  | valued (name : Bytes) (body : List Piece)
  deriving Repr, DecidableEq

namespace Lexeme

/-- What stands between the name of a valued token and the next lexeme. -/
def quotation (body : List Piece) : Bytes :=
  0x3a :: Quoting.quote :: (body.flatMap Piece.text ++ [Quoting.quote])

def text : Lexeme → Bytes
  | blank b => [b]
  | marker m => [m.byte]
  | bare name => name
  | valued name body => name ++ quotation body

/-- The token a lexeme means. A blank means none, and the backslashes that escape are no part of a
value. -/
def token? : Lexeme → Option Token
  | blank _ => none
  | marker m => some (.ofMarker m)
  | bare name => some ⟨name, []⟩
  | valued name body => some ⟨name, body.map Piece.byte⟩

/-- A space, a tab, a carriage return or a newline. -/
def Blank (b : UInt8) : Prop := b.toNat ∈ [' ', '\t', '\r', '\n'].map Char.toNat

instance : DecidablePred Blank := fun _ => inferInstanceAs (Decidable (_ ∈ _))

/-- One or more of the bytes that names are made of. -/
def Name (name : Bytes) : Prop := name ≠ [] ∧ ∀ b ∈ name, Token.Alphabetic b

instance : DecidablePred Name := fun _ => inferInstanceAs (Decidable (_ ∧ _))

def Fits : Lexeme → Prop
  | blank b => Blank b
  | marker _ => True
  | bare name => Name name
  | valued name body => Name name ∧ ∀ p ∈ body, p.Fits

instance : DecidablePred Fits := fun
  | blank b => inferInstanceAs (Decidable (Blank b))
  | marker _ => inferInstanceAs (Decidable True)
  | bare name => inferInstanceAs (Decidable (Name name))
  | valued _ _ => inferInstanceAs (Decidable (_ ∧ _))

/-- Whether a bare name ends where the lexeme begins. -/
def ends : Lexeme → Bool
  | blank _ | marker _ => true
  | bare _ | valued _ _ => false

/-- After a bare name stands a blank or a marker, if anything; all else may stand side by side. -/
def Adjoins : Lexeme → Lexeme → Prop
  | bare _, l => l.ends = true
  | _, _ => True

instance : DecidableRel Adjoins := fun
  | bare _, l => inferInstanceAs (Decidable (l.ends = true))
  | blank _, _ | marker _, _ | valued _ _, _ => inferInstanceAs (Decidable True)

end Lexeme

/-- Lexemes that may stand in a line one after the other. -/
structure WellFormed (ls : List Lexeme) : Prop where
  fits : ∀ l ∈ ls, l.Fits
  adjoin : ls.IsChain Lexeme.Adjoins

/-- Lexemes that spell a line and mean tokens. -/
structure Reading (ls : List Lexeme) (line : Bytes) (ts : List Token) : Prop extends
    WellFormed ls where
  spells : ls.flatMap Lexeme.text = line
  means : ls.filterMap Lexeme.token? = ts

variable {l l' : Lexeme} {ls ls' done : List Lexeme} {body body' : List Piece} {p p' : Pending}
  {b : UInt8} {line rest rest' name name' pre : Bytes} {now ts ts' : List Token} {start pos : Nat}

theorem isBlank_iff (b : UInt8) : isBlank b = true ↔ Lexeme.Blank b := by
  simp [isBlank, Lexeme.Blank, ← UInt8.toNat_inj, or_assoc]

theorem Lexeme.Name.isNameByte (h : Lexeme.Name name) : ∀ b ∈ name, isNameByte b = true :=
  fun b hb => (isNameByte_iff b).mpr (h.2 b hb)

theorem isMarker_byte (m : Marker) : isMarker m.byte = true := by
  cases m <;> rfl

theorem ofByte?_byte (m : Marker) : Marker.ofByte? m.byte = some m := by
  cases m <;> rfl

theorem byte_injective {m m' : Marker} (h : m.byte = m'.byte) : m = m' := by
  simpa [ofByte?_byte] using congrArg Marker.ofByte? h

theorem exists_marker (h : isMarker b = true) : ∃ m : Marker, m.byte = b := by
  obtain ⟨m, -, hm⟩ := List.mem_map.mp ((isMarker_iff b).mp h)
  exact ⟨m, (List.cons.inj hm).1⟩

theorem wellFormed_cons : WellFormed (l :: ls) ↔
    l.Fits ∧ (∀ l' ∈ ls.head?, l.Adjoins l') ∧ WellFormed ls := by
  constructor
  · intro h
    obtain ⟨hl, hls⟩ := List.forall_mem_cons.mp h.fits
    obtain ⟨hadj, hchain⟩ := List.isChain_cons.mp h.adjoin
    exact ⟨hl, hadj, hls, hchain⟩
  · rintro ⟨hl, hadj, hls, hchain⟩
    exact ⟨List.forall_mem_cons.mpr ⟨hl, hls⟩, List.isChain_cons.mpr ⟨hadj, hchain⟩⟩

/-! What lexemes spell is read into what they mean. -/

theorem reads_body (hb : ∀ p ∈ body, p.Fits) (value : Bytes) (h : Reads .between rest ts) :
    Reads (.valued start name value false) (body.flatMap Piece.text ++ Quoting.quote :: rest)
      (⟨name, value ++ body.map Piece.byte⟩ :: ts) := by
  induction body generalizing value with
  | nil => simpa using reads_value h value []
  | cons q body ih =>
    obtain ⟨hq, hbody⟩ := List.forall_mem_cons.mp hb
    have hnext := ih hbody (value ++ [q.byte])
    rw [List.append_assoc, List.singleton_append] at hnext
    rw [List.flatMap_cons, List.append_assoc, List.map_cons]
    cases q with
    | plain b =>
      refine Reads.cons [] fun _ => ⟨.valued start name (value ++ [b]) false, ?_, hnext⟩
      simp [Pending.step, hq.1, hq.2]
    | escaped b =>
      refine Reads.cons [] fun _ => ⟨.valued start name value true, rfl, ?_⟩
      exact Reads.cons [] fun _ => ⟨.valued start name (value ++ [b]) false, rfl, hnext⟩

theorem reads_valued (hn : Lexeme.Name name) (hb : ∀ p ∈ body, p.Fits)
    (h : Reads .between rest ts) :
    Reads .between (name ++ Lexeme.quotation body ++ rest)
      (⟨name, body.map Piece.byte⟩ :: ts) := by
  rw [List.append_assoc]
  refine reads_name hn.1 hn.isNameByte fun start => ?_
  rw [Lexeme.quotation, List.cons_append, List.cons_append, List.append_assoc]
  refine Reads.cons [] fun _ => ⟨.colon start name, rfl, ?_⟩
  refine Reads.cons [] fun _ => ⟨.valued start name [] false, rfl, ?_⟩
  exact reads_body hb [] h

theorem resumes_marker (m : Marker) (h : Reads .between rest ts) :
    Resumes (m.byte :: rest) (.ofMarker m :: ts) where
  between := reads_marker (isMarker_byte m) h
  bare start name := by
    refine Reads.cons [⟨name, []⟩, .ofMarker m] fun _ => ⟨.between, ?_, h⟩
    have hm := isMarker_byte m
    simp [Pending.step, isMarker_apart hm, hm, Token.ofMarker, Marker.name]

/-- Where the first lexeme ends a bare name, the line may go on with it after any token. -/
theorem reads_lexemes (h : WellFormed ls) :
    Reads .between (ls.flatMap Lexeme.text) (ls.filterMap Lexeme.token?) ∧
      ((∀ l ∈ ls.head?, l.ends = true) →
        Resumes (ls.flatMap Lexeme.text) (ls.filterMap Lexeme.token?)) := by
  induction ls with
  | nil => exact ⟨resumes_nil.between, fun _ => resumes_nil⟩
  | cons l ls ih =>
    obtain ⟨hfits, hadjoins, hls⟩ := wellFormed_cons.mp h
    obtain ⟨hreads, hresumes⟩ := ih hls
    rw [List.flatMap_cons]
    cases l with
    | blank b =>
      have hblank := resumes_blank ((isBlank_iff b).mpr hfits) hreads
      exact ⟨hblank.between, fun _ => hblank⟩
    | marker m =>
      have hmarker := resumes_marker m hreads
      exact ⟨hmarker.between, fun _ => hmarker⟩
    | bare name =>
      refine ⟨reads_name hfits.1 hfits.isNameByte fun start => ?_, fun hends => ?_⟩
      · exact (hresumes hadjoins).bare start name
      · cases hends _ rfl
    | valued name body =>
      refine ⟨reads_valued hfits.1 hfits.2 hreads, fun hends => ?_⟩
      cases hends _ rfl

/-! What is read is spelt by lexemes. -/

/-- What has been read of the token under way. -/
def Pending.Spelt : Pending → Bytes → Prop
  | .between, pre => pre = []
  | .bare _ name, pre => pre = name
  | .colon _ name, pre => pre = name ++ [0x3a]
  | .valued _ name value escaped, pre => ∃ body : List Piece, (∀ p ∈ body, p.Fits) ∧
      body.map Piece.byte = value ∧
      pre = name ++ 0x3a :: Quoting.quote :: (body.flatMap Piece.text ++
        if escaped then [Quoting.backslash] else [])

/-- Lexemes that are complete: after the last one the line may go on in any way. -/
structure Complete (done : List Lexeme) : Prop extends WellFormed done where
  last : ∀ l ∈ done.getLast?, ∀ l', l.Adjoins l'

theorem complete_nil : Complete [] := ⟨⟨by simp, .nil⟩, by simp⟩

theorem complete_single (h : l.Fits) (hl : ∀ l', l.Adjoins l') : Complete [l] :=
  ⟨⟨by simpa using h, .singleton l⟩, by simpa using hl⟩

/-- A bare name is complete with the lexeme that ends it. -/
theorem complete_pair (hn : Lexeme.Name name) (h : l.Fits) (hl : l.ends = true) :
    Complete [.bare name, l] := by
  have hadjoins : ∀ l', l.Adjoins l' := by
    cases l with
    | blank _ | marker _ => exact fun _ => trivial
    | bare _ | valued _ _ => cases hl
  refine ⟨wellFormed_cons.mpr ⟨hn, ?_, (complete_single h hadjoins).toWellFormed⟩, ?_⟩
  · simpa [Lexeme.Adjoins] using hl
  · simpa using hadjoins

theorem Complete.append (h : Complete done) (hls : WellFormed ls) : WellFormed (done ++ ls) where
  fits l hl := (List.mem_append.mp hl).elim (h.fits l) (hls.fits l)
  adjoin := List.isChain_append.mpr ⟨h.adjoin, hls.adjoin, fun l hl l' _ => h.last l hl l'⟩

/-- The offset at which the token under way begins. -/
def Pending.start? : Pending → Option Nat
  | .between => none
  | .bare start _ | .colon start _ | .valued start _ _ _ => some start

/-- A token that is under way after a byte takes it, and began earlier or with it. -/
theorem Pending.Spelt.goesOn (hs : p.Spelt pre) (h : p.step pos b = .ok (now, p'))
    (hp : p' ≠ .between) :
    now = [] ∧ p'.start? = some (p.start?.getD pos) ∧ p'.Spelt (pre ++ [b]) := by
  cases p with
  | between =>
    obtain rfl : pre = [] := hs
    simp only [Pending.step] at h
    split_ifs at h <;> cases h
    · exact (hp rfl).elim
    · exact (hp rfl).elim
    · exact ⟨rfl, rfl, rfl⟩
  | bare start name =>
    obtain rfl : pre = name := hs
    simp only [Pending.step] at h
    split_ifs at h with hb hm hcolon <;> cases h
    · exact (hp rfl).elim
    · exact (hp rfl).elim
    · exact ⟨rfl, rfl, by rw [hcolon]; rfl⟩
    · exact ⟨rfl, rfl, rfl⟩
  | colon start name =>
    obtain rfl : pre = name ++ [0x3a] := hs
    simp only [Pending.step] at h
    split_ifs at h with hquote
    cases h
    exact ⟨rfl, rfl, [], by simp, rfl, by simp [hquote]⟩
  | valued start name value escaped =>
    obtain ⟨body, hfits, rfl, rfl⟩ := hs
    cases escaped with
    | true =>
      cases h
      refine ⟨rfl, rfl, body ++ [.escaped b], ?_, by simp [Piece.byte], by simp [Piece.text]⟩
      simpa [or_imp, forall_and, Piece.Fits] using hfits
    | false =>
      simp only [Pending.step] at h
      split_ifs at h with hback hquote <;> cases h
      · exact ⟨rfl, rfl, body, hfits, rfl, by simp [hback]⟩
      · exact (hp rfl).elim
      · refine ⟨rfl, rfl, body ++ [.plain b], ?_, by simp [Piece.byte], by simp [Piece.text]⟩
        intro q hq
        rcases List.mem_append.mp hq with hq | hq
        · exact hfits q hq
        · obtain rfl := List.mem_singleton.mp hq
          exact ⟨hquote, hback⟩

/-- A byte after which no token is under way completes lexemes that mean the tokens it completes. -/
theorem Pending.Spelt.ends (hs : p.Spelt pre) (hp : p.Sound)
    (h : p.step pos b = .ok (now, .between)) :
    ∃ done, Complete done ∧ done.filterMap Lexeme.token? = now ∧
      pre ++ [b] = done.flatMap Lexeme.text := by
  have hblank : isBlank b = true → (Lexeme.blank b).Fits := (isBlank_iff b).mp
  cases p with
  | between =>
    obtain rfl : pre = [] := hs
    simp only [Pending.step] at h
    split_ifs at h with hb hm <;> cases h
    · exact ⟨[.blank b], complete_single (hblank hb) fun _ => trivial, rfl, rfl⟩
    · obtain ⟨m, rfl⟩ := exists_marker hm
      exact ⟨[.marker m], complete_single trivial fun _ => trivial, rfl, rfl⟩
  | bare start name =>
    obtain rfl : pre = name := hs
    simp only [Pending.step] at h
    split_ifs at h with hb hm <;> cases h
    · exact ⟨[.bare pre, .blank b], complete_pair hp (hblank hb) rfl, rfl, by simp [Lexeme.text]⟩
    · obtain ⟨m, rfl⟩ := exists_marker hm
      exact ⟨[.bare pre, .marker m], complete_pair hp trivial rfl, rfl, by simp [Lexeme.text]⟩
  | colon start name =>
    simp only [Pending.step] at h
    split_ifs at h
    cases h
  | valued start name value escaped =>
    obtain ⟨body, hfits, rfl, rfl⟩ := hs
    cases escaped with
    | true => cases h
    | false =>
      simp only [Pending.step] at h
      split_ifs at h with hback hquote <;> cases h
      refine ⟨[.valued name body], complete_single ⟨hp, hfits⟩ fun _ => trivial, rfl, ?_⟩
      simp [Lexeme.text, Lexeme.quotation, hquote]

/-- One byte completes some lexemes, which mean the tokens that it completes, and belongs to them or
to the token that is then under way. -/
theorem Pending.Spelt.step (hs : p.Spelt pre) (hp : p.Sound) (h : p.step pos b = .ok (now, p')) :
    ∃ done pre', Complete done ∧ done.filterMap Lexeme.token? = now ∧ p'.Spelt pre' ∧
      pre ++ [b] = done.flatMap Lexeme.text ++ pre' := by
  by_cases hb : p' = .between
  · subst hb
    obtain ⟨done, hdone, hnow, hpre⟩ := hs.ends hp h
    exact ⟨done, [], hdone, hnow, rfl, by rw [hpre, List.append_nil]⟩
  · obtain ⟨rfl, -, hs'⟩ := hs.goesOn h hb
    exact ⟨[], _, complete_nil, rfl, hs', rfl⟩

theorem Pending.Spelt.finish (hs : p.Spelt pre) (hp : p.Sound) (h : p.finish = .ok ts) :
    ∃ ls, Reading ls pre ts := by
  cases p with
  | between =>
    cases h
    exact ⟨[], ⟨⟨by simp, .nil⟩, hs.symm, rfl⟩⟩
  | bare start name =>
    cases h
    obtain rfl : pre = name := hs
    have hname : Lexeme.Fits (.bare pre) := hp
    exact ⟨[.bare pre], ⟨⟨by simpa using hname, .singleton _⟩, by simp [Lexeme.text], rfl⟩⟩
  | colon _ _ => cases h
  | valued _ _ _ _ => cases h

/-- Every line that is read is spelt, the token under way included. -/
theorem Pending.Spelt.read (hs : p.Spelt pre) (hp : p.Sound) (h : Line.read pos p line = .ok ts) :
    ∃ ls, Reading ls (pre ++ line) ts := by
  induction line generalizing pos p pre ts with
  | nil =>
    rw [List.append_nil]
    exact hs.finish hp h
  | cons b line ih =>
    rw [Line.read] at h
    split at h
    · cases h
    · next now p' hstep =>
      split at h
      · cases h
      · next rest hrest =>
        cases h
        obtain ⟨done, pre', hdone, rfl, hs', hpre⟩ := hs.step hp hstep
        obtain ⟨ls, hls⟩ := ih hs' (hp.step hstep).1 hrest
        refine ⟨done ++ ls, hdone.append hls.toWellFormed, ?_, ?_⟩
        · rw [List.flatMap_append, hls.spells, ← List.append_assoc, ← hpre, List.append_assoc]
          rfl
        · rw [List.filterMap_append, hls.means]

/-! No line is spelt in two ways. -/

/-- A name reaches up to the first byte that names are not made of. -/
theorem name_unique (hn : Lexeme.Name name) (hn' : Lexeme.Name name')
    (hr : ∀ b ∈ rest.head?, isNameByte b = false) (hr' : ∀ b ∈ rest'.head?, isNameByte b = false)
    (h : name ++ rest = name' ++ rest') : name = name' ∧ rest = rest' := by
  have htake : ∀ {name rest : Bytes}, Lexeme.Name name → (∀ b ∈ rest.head?, isNameByte b = false) →
      (name ++ rest).takeWhile isNameByte = name := by
    intro name rest hn hr
    rw [List.takeWhile_append_of_pos hn.isNameByte]
    cases rest with
    | nil => simp
    | cons b rest => simp [hr b rfl]
  have hname : name = name' := by rw [← htake hn hr, h, htake hn' hr']
  subst hname
  exact ⟨rfl, List.append_cancel_left h⟩

/-- A byte that stands for itself is no backslash, so the first byte tells the kind of a piece. -/
theorem piece_unique {q q' : Piece} (hq : q.Fits) (hq' : q'.Fits)
    (h : q.text ++ rest = q'.text ++ rest') :
    q = q' ∧ rest = rest' := by
  cases q with
  | plain b =>
    cases q' with
    | plain b' =>
      obtain ⟨rfl, hrest⟩ := List.cons.inj h
      exact ⟨rfl, hrest⟩
    | escaped b' => exact (hq.2 (List.cons.inj h).1).elim
  | escaped b =>
    cases q' with
    | plain b' => exact (hq'.2 (List.cons.inj h).1.symm).elim
    | escaped b' =>
      obtain ⟨rfl, hrest⟩ := List.cons.inj (List.cons.inj h).2
      exact ⟨rfl, hrest⟩

/-- A value reaches up to the first quote that is not escaped. -/
theorem body_unique (hb : ∀ p ∈ body, p.Fits) (hb' : ∀ p ∈ body', p.Fits)
    (h : body.flatMap Piece.text ++ Quoting.quote :: rest =
      body'.flatMap Piece.text ++ Quoting.quote :: rest') : body = body' ∧ rest = rest' := by
  induction body generalizing body' with
  | nil =>
    cases body' with
    | nil => exact ⟨rfl, (List.cons.inj h).2⟩
    | cons q body' =>
      have hq := hb' q (by simp)
      cases q with
      | plain b => exact (hq.1 (List.cons.inj h).1.symm).elim
      | escaped b => cases (List.cons.inj h).1
  | cons q body ih =>
    obtain ⟨hq, hbody⟩ := List.forall_mem_cons.mp hb
    cases body' with
    | nil =>
      cases q with
      | plain b => exact (hq.1 (List.cons.inj h).1).elim
      | escaped b => cases (List.cons.inj h).1
    | cons q' body' =>
      obtain ⟨hq', hbody'⟩ := List.forall_mem_cons.mp hb'
      rw [List.flatMap_cons, List.flatMap_cons, List.append_assoc, List.append_assoc] at h
      obtain ⟨rfl, hmore⟩ := piece_unique hq hq' h
      obtain ⟨rfl, hrest⟩ := ih hbody hbody' hmore
      exact ⟨rfl, hrest⟩

/-- What the first byte of a lexeme tells. -/
inductive Lexeme.Lead where
  | blank
  | marker
  | name

def Lexeme.Lead.ofByte (b : UInt8) : Lexeme.Lead :=
  if isBlank b then .blank else if isMarker b then .marker else .name

def Lexeme.lead : Lexeme → Lexeme.Lead
  | blank _ => .blank
  | marker _ => .marker
  | bare _ | valued _ _ => .name

theorem Lexeme.Name.begins (h : Lexeme.Name name) :
    ∃ b rest, name = b :: rest ∧ Lexeme.Lead.ofByte b = .name := by
  cases name with
  | nil => exact (h.1 rfl).elim
  | cons b rest =>
    obtain ⟨hblank, hmark, -⟩ := isNameByte_apart (h.isNameByte b (by simp))
    exact ⟨b, rest, rfl, by simp [Lexeme.Lead.ofByte, hblank, hmark]⟩

theorem Lexeme.Fits.begins (h : l.Fits) :
    ∃ b rest, l.text = b :: rest ∧ Lexeme.Lead.ofByte b = l.lead := by
  cases l with
  | blank b =>
    have hb := (isBlank_iff b).mpr h
    exact ⟨b, [], rfl, by simp [Lead.ofByte, hb, lead]⟩
  | marker m =>
    have hm := isMarker_byte m
    exact ⟨m.byte, [], rfl, by simp [Lead.ofByte, isMarker_apart hm, hm, lead]⟩
  | bare name => exact Name.begins h
  | valued name body =>
    obtain ⟨b, rest, rfl, hb⟩ := h.1.begins
    exact ⟨b, rest ++ quotation body, rfl, hb⟩

/-- What follows a bare name is nothing that a name could go on with, nor a value. -/
theorem WellFormed.after_bare (h : WellFormed (.bare name :: ls)) :
    ∀ b ∈ (ls.flatMap Lexeme.text).head?, isNameByte b = false ∧ b ≠ 0x3a := by
  obtain ⟨-, hadjoins, hls⟩ := wellFormed_cons.mp h
  cases ls with
  | nil => simp
  | cons l ls =>
    have hends : l.ends = true := hadjoins l rfl
    have hfits := hls.fits l (by simp)
    intro b hb
    cases l with
    | blank c =>
      obtain rfl : c = b := by simpa [Lexeme.text] using hb
      have hblank := (isBlank_iff c).mpr hfits
      refine ⟨?_, ?_⟩
      · by_contra hn
        rw [(isNameByte_apart (by simpa using hn)).1] at hblank
        cases hblank
      · rintro rfl
        cases hblank
    | marker m =>
      obtain rfl : m.byte = b := by simpa [Lexeme.text] using hb
      cases m <;> exact ⟨rfl, by decide⟩
    | bare _ | valued _ _ => cases hends

theorem quotation_head (body : List Piece) (rest : Bytes) :
    ∀ b ∈ (Lexeme.quotation body ++ rest).head?, isNameByte b = false := by
  intro b hb
  obtain rfl : 0x3a = b := by simpa [Lexeme.quotation] using hb
  rfl

/-- The first lexeme of a line is determined, and so is what follows it. -/
theorem first_unique (h : WellFormed (l :: ls)) (h' : WellFormed (l' :: ls'))
    (ht : (l :: ls).flatMap Lexeme.text = (l' :: ls').flatMap Lexeme.text) :
    l = l' ∧ ls.flatMap Lexeme.text = ls'.flatMap Lexeme.text := by
  have hfits := h.fits l (by simp)
  have hfits' := h'.fits l' (by simp)
  rw [List.flatMap_cons, List.flatMap_cons] at ht
  have hlead : l.lead = l'.lead := by
    obtain ⟨b, rest, htext, hb⟩ := hfits.begins
    obtain ⟨b', rest', htext', hb'⟩ := hfits'.begins
    rw [htext, htext'] at ht
    rw [← hb, ← hb', (List.cons.inj ht).1]
  cases l with
  | blank b =>
    cases l' with
    | blank b' =>
      obtain ⟨rfl, hrest⟩ := List.cons.inj ht
      exact ⟨rfl, hrest⟩
    | _ => cases hlead
  | marker m =>
    cases l' with
    | marker m' =>
      obtain ⟨hm, hrest⟩ := List.cons.inj ht
      exact ⟨congrArg _ (byte_injective hm), hrest⟩
    | _ => cases hlead
  | bare name =>
    have hafter := h.after_bare
    cases l' with
    | bare name' =>
      obtain ⟨rfl, hrest⟩ := name_unique hfits hfits' (fun b hb => (hafter b hb).1)
        (fun b hb => (h'.after_bare b hb).1) ht
      exact ⟨rfl, hrest⟩
    | valued name' body' =>
      rw [Lexeme.text, Lexeme.text, List.append_assoc] at ht
      obtain ⟨-, hrest⟩ := name_unique hfits hfits'.1 (fun b hb => (hafter b hb).1)
        (quotation_head body' _) ht
      exact ((hafter 0x3a (by rw [hrest]; rfl)).2 rfl).elim
    | _ => cases hlead
  | valued name body =>
    rw [Lexeme.text, List.append_assoc] at ht
    cases l' with
    | bare name' =>
      have hafter := h'.after_bare
      obtain ⟨-, hrest⟩ := name_unique hfits.1 hfits' (quotation_head body _)
        (fun b hb => (hafter b hb).1) ht
      exact ((hafter 0x3a (by rw [← hrest]; rfl)).2 rfl).elim
    | valued name' body' =>
      rw [Lexeme.text, List.append_assoc] at ht
      obtain ⟨rfl, hquoted⟩ := name_unique hfits.1 hfits'.1 (quotation_head body _)
        (quotation_head body' _) ht
      simp only [Lexeme.quotation, List.cons_append, List.append_assoc, List.nil_append,
        List.cons.injEq, true_and] at hquoted
      obtain ⟨rfl, hrest⟩ := body_unique hfits.2 hfits'.2 hquoted
      exact ⟨rfl, hrest⟩
    | _ => cases hlead

theorem lexemes_unique (h : WellFormed ls) (h' : WellFormed ls')
    (ht : ls.flatMap Lexeme.text = ls'.flatMap Lexeme.text) : ls = ls' := by
  have hne : ∀ {l : Lexeme} {ls}, WellFormed (l :: ls) → (l :: ls).flatMap Lexeme.text ≠ [] := by
    intro l ls h hnil
    obtain ⟨b, rest, htext, -⟩ := (h.fits l (by simp)).begins
    simp [htext] at hnil
  induction ls generalizing ls' with
  | nil =>
    cases ls' with
    | nil => rfl
    | cons l' ls' => exact (hne h' ht.symm).elim
  | cons l ls ih =>
    cases ls' with
    | nil => exact (hne h ht).elim
    | cons l' ls' =>
      obtain ⟨rfl, hrest⟩ := first_unique h h' ht
      rw [ih (wellFormed_cons.mp h).2.2 (wellFormed_cons.mp h').2.2 hrest]

/-- Tokenizing follows the grammar: a line is read into tokens exactly if lexemes that may follow
each other spell it and mean these tokens, and in one way only. -/
theorem tokenize_iff_reading (line : Bytes) :
    (∀ ts, tokenize line = .ok ts ↔ ∃ ls, Reading ls line ts) ∧
      ∀ ls ls' ts ts', Reading ls line ts → Reading ls' line ts' → ls = ls' := by
  refine ⟨fun ts => ⟨fun h => ?_, ?_⟩, fun ls ls' ts ts' h h' => ?_⟩
  · have hspelt : Pending.Spelt .between [] := rfl
    exact hspelt.read trivial h
  · rintro ⟨ls, hls⟩
    rw [← hls.spells, ← hls.means]
    exact (reads_lexemes hls.toWellFormed).1 0
  · exact lexemes_unique h.toWellFormed h'.toWellFormed (h.spells.trans h'.spells.symm)

/-- Values side by side with an escaped quote and an escaped digit in them, and names that end at a
marker, at a tab and at the end of the line. -/
def hardLexemes : List Lexeme :=
  [.valued "ID" [.plain 0x69, .escaped 0x27, .plain 0x20],
    .valued "INT" [.plain 0x34, .escaped 0x32],
    .bare "exp", .marker .openGroup, .valued "_" [], .bare "x1", .blank 0x09, .bare "Y"]

theorem tokenize_iff_reading_hardLexemes :
    let line := Bytes.ofString "ID:'i\\' 'INT:'4\\2'exp(_:''x1\tY"
    let ts : List Token :=
      [⟨"ID", "i' "⟩, ⟨"INT", "42"⟩, ⟨"exp", []⟩, ⟨"(", []⟩, ⟨"_", []⟩, ⟨"x1", []⟩, ⟨"Y", []⟩]
    Reading hardLexemes line ts ∧ tokenize line = .ok ts ∧
      ∀ ls ts', Reading ls line ts' → hardLexemes = ls := by
  intro line ts
  have hreading : Reading hardLexemes line ts :=
    ⟨⟨by decide +kernel, by decide +kernel⟩, by decide +kernel, by decide +kernel⟩
  obtain ⟨hiff, honly⟩ := tokenize_iff_reading line
  exact ⟨hreading, (hiff ts).mpr ⟨_, hreading⟩, fun ls ts' h => honly _ _ _ _ hreading h⟩

end TokenShell.Line
