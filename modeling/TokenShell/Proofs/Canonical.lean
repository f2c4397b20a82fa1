import TokenShell.Proofs.Depth
import TokenShell.Proofs.Layout
import TokenShell.Proofs.Requests
import TokenShell.Token.Listing

/-! Listings in canonical form. Lines that leave nothing open are listed line by line with the same
tokens, and the listing is listed as itself. -/
namespace TokenShell

namespace Bytes

variable {xs line : Bytes}

/-- A newline ends a line, and stands nowhere else in it. -/
theorem newline_ends_line (h : line ∈ lines xs) : newline ∉ line.dropLast := by
  induction xs generalizing line with
  | nil => cases h
  | cons b xs ih =>
    rw [lines] at h
    split at h
    case isTrue hb =>
      rcases List.mem_cons.mp h with rfl | h
      · exact List.not_mem_nil
      · exact ih h
    case isFalse hb =>
      split at h
      case h_1 _ hnil =>
        rw [List.mem_singleton.mp h]
        exact List.not_mem_nil
      case h_2 _ l ls hcons =>
        have hl : newline ∉ l.dropLast := ih (by simp [hcons])
        rcases List.mem_cons.mp h with rfl | h
        · cases l with
          | nil => exact List.not_mem_nil
          | cons c l =>
            rw [List.dropLast_cons_cons, List.mem_cons, not_or]
            exact ⟨Ne.symm hb, hl⟩
        · exact ih (by simp [hcons, h])

end Bytes

namespace Line

variable {line : Bytes} {t : Token} {ts : List Token} {lines : List Bytes} {tss : List (List Token)}
  {body : List Piece} {b : UInt8}

theorem mem_text_of_mem_body (h : b ∈ body.map Piece.byte) : b ∈ body.flatMap Piece.text := by
  obtain ⟨p, hp, rfl⟩ := List.mem_map.mp h
  apply List.mem_flatMap.mpr
  refine ⟨p, hp, ?_⟩
  cases p <;> simp [Piece.byte, Piece.text]

/-- The value of a token of a line is followed by a quote there, so that no token has the newline
that ends the line in its value. -/
theorem oneLine_of_tokenize (h : tokenize line = .ok ts) (hline : Bytes.newline ∉ line.dropLast) :
    ∀ t ∈ ts, t.OneLine := by
  intro t ht
  have hsound : Pending.Sound .between := trivial
  refine ⟨hsound.read h t ht, ?_⟩
  intro hnewline
  have hspelt : Pending.Spelt .between [] := rfl
  obtain ⟨ls, hls⟩ := hspelt.read trivial h
  rw [← hls.means] at ht
  obtain ⟨l, hl, hlt⟩ := List.mem_filterMap.mp ht
  obtain ⟨before, after, hsplit⟩ := List.append_of_mem hl
  cases l with
  | blank b => cases hlt
  | marker m =>
    cases hlt
    cases hnewline
  | bare name =>
    cases hlt
    cases hnewline
  | valued name body =>
    cases hlt
    have hbody := mem_text_of_mem_body hnewline
    apply hline
    have hspells : line = (before.flatMap Lexeme.text ++ name ++ 0x3a :: Quoting.quote ::
        body.flatMap Piece.text) ++ Quoting.quote :: after.flatMap Lexeme.text := by
      have hspells := hls.spells
      rw [hsplit, List.nil_append] at hspells
      rw [← hspells]
      simp [Lexeme.text, Lexeme.quotation]
    rw [hspells, List.dropLast_append_cons]
    apply List.mem_append_left
    simp [hbody]

theorem newline_not_mem_format (h : ∀ t ∈ ts, t.OneLine) : Bytes.newline ∉ format ts := by
  induction ts with
  | nil => exact List.not_mem_nil
  | cons t ts ih =>
    have ht := (h t (by simp)).compact.line
    have hts := ih fun u hu => h u (by simp [hu])
    cases ts with
    | nil => simpa [format, Bytes.join] using ht
    | cons u ts =>
      rw [format_cons_cons]
      simp only [List.mem_append, List.mem_cons, not_or]
      exact ⟨ht, by decide, hts⟩

/-- The line in which tokens are listed. -/
def canonicalLine (ts : List Token) : Bytes := format ts ++ [Bytes.newline]

theorem tokenize_canonicalLine (h : ∀ t ∈ ts, t.Representable) :
    tokenize (canonicalLine ts) = .ok ts := by
  have hend : Resumes [Bytes.newline] [] := resumes_blank rfl resumes_nil.between
  have hread := reads_format_append h hend 0
  rwa [List.append_nil] at hread

/-- The line is read into the tokens, each of which can be written on one line, and leaves nothing
open. -/
def ReadAs (line : Bytes) (ts : List Token) : Prop :=
  tokenize line = .ok ts ∧ (∀ t ∈ ts, t.OneLine) ∧ depth line = 0

theorem ReadAs.canonicalLine (h : ReadAs line ts) : ReadAs (canonicalLine ts) ts := by
  obtain ⟨hread, hone, hdepth⟩ := h
  have hback := tokenize_canonicalLine fun t ht => (hone t ht).1
  exact ⟨hback, hone, (depth_congr hread hback).trans hdepth⟩

/-- The listing of one line. -/
theorem listLines_cons (h : ReadAs line ts) (number : Nat) :
    listLines true number (line :: lines) =
      { text := canonicalLine ts ++ (listLines true (number + 1) lines).text
        fault := (listLines true (number + 1) lines).fault } := by
  simp [listLines, h.1, listLine, h.2.2, canonicalLine]

/-- The listing of lines that are all read. -/
theorem listLines_readAs (h : List.Forall₂ ReadAs lines tss) (number : Nat) :
    listLines true number lines = { text := tss.flatMap canonicalLine } := by
  induction h generalizing number with
  | nil => rfl
  | cons hread _ ih =>
    rw [listLines_cons hread, ih]
    rfl

/-- A listing that comes to its end has read all lines. -/
theorem readAs_of_listLines {number : Nat} (h : (listLines true number lines).fault = none)
    (hdepth : ∀ line ∈ lines, depth line = 0)
    (hends : ∀ line ∈ lines, Bytes.newline ∉ line.dropLast) :
    ∃ tss, List.Forall₂ ReadAs lines tss := by
  induction lines generalizing number with
  | nil => exact ⟨[], .nil⟩
  | cons line lines ih =>
    obtain ⟨hd, hdepth⟩ := List.forall_mem_cons.mp hdepth
    obtain ⟨he, hends⟩ := List.forall_mem_cons.mp hends
    cases hread : tokenize line with
    | error e => simp [listLines, hread] at h
    | ok ts =>
      have hline : ReadAs line ts := ⟨hread, oneLine_of_tokenize hread he, hd⟩
      rw [listLines_cons hline] at h
      obtain ⟨tss, htss⟩ := ih h hdepth hends
      exact ⟨ts :: tss, .cons hline htss⟩

theorem forall₂_canonicalLine (h : List.Forall₂ ReadAs lines tss) :
    List.Forall₂ ReadAs (tss.map canonicalLine) tss := by
  induction h with
  | nil => exact .nil
  | cons hread _ ih => exact .cons hread.canonicalLine ih

/-- A listing is cut into lines where the lines that it lists were. -/
theorem lines_flatMap_canonicalLine (h : List.Forall₂ ReadAs lines tss) :
    Bytes.lines (tss.flatMap canonicalLine) = tss.map canonicalLine := by
  induction h with
  | nil => rfl
  | @cons line ts lines tss hread _ ih =>
    have hline := newline_not_mem_format hread.2.1
    rw [List.flatMap_cons, canonicalLine, List.append_assoc, List.singleton_append,
      Bytes.lines_line hline, ih]
    rfl

/-- A canonical listing of lines that leave nothing open has a line for each of them, which is read
into the same tokens, and is its own canonical listing. -/
theorem canonical_listing_fixed {input : Bytes} (h : (list true input).fault = none)
    (hdepth : ∀ line ∈ Bytes.lines input, depth line = 0) :
    List.Forall₂
      (fun line line' => ∃ ts, line' = format ts ++ [Bytes.newline] ∧
        tokenize line = .ok ts ∧ tokenize line' = .ok ts)
      (Bytes.lines input) (Bytes.lines (list true input).text) ∧
    list true (list true input).text = { text := (list true input).text } := by
  obtain ⟨tss, htss⟩ := readAs_of_listLines h hdepth fun _ => Bytes.newline_ends_line
  have hback := forall₂_canonicalLine htss
  rw [list, listLines_readAs htss, list, lines_flatMap_canonicalLine htss, listLines_readAs hback]
  refine ⟨?_, rfl⟩
  rw [List.forall₂_map_right_iff]
  exact htss.imp fun line ts hread => ⟨ts, rfl, hread.1, hread.canonicalLine.1⟩

/-- Lines with blanks of all kinds, an empty one, values with a quote, a backslash and a marker, and
no newline at the end. -/
theorem canonical_listing_fixed_loose :
    let input := Bytes.ofString "(exp\t INT:'1')\r\n\nID:'a\\'\\\\\\b' ;\n\x7b  [FRAG:'\x7b']\x7d"
    let listing :=
      Bytes.ofString "( exp INT:'1' )\n\nID:'a\\'\\\\b' ;\n\x7b [ FRAG:'\x7b' ] \x7d\n"
    (list true input).text = listing ∧ (Bytes.lines listing).length = 4 ∧
      list true listing = { text := listing } := by
  intro input listing
  have htext : (list true input).text = listing := by decide +kernel
  have hfault : (list true input).fault = none := by decide +kernel
  obtain ⟨hlines, hfixed⟩ := canonical_listing_fixed hfault (by decide +kernel)
  rw [htext] at hlines hfixed
  have hcount : (Bytes.lines input).length = 4 := by decide +kernel
  exact ⟨htext, hlines.length_eq.symm.trans hcount, hfixed⟩

end Line

end TokenShell
