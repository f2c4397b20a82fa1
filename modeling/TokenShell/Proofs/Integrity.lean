import TokenShell.Host.Terminal
import TokenShell.Log.Report
import TokenShell.Proofs.Attachment
import TokenShell.Proofs.Quotation
import TokenShell.Proofs.Requests

/-! Log lines cannot be forged. A record is written on one line, whatever its values are, and two
values of an attribute are never written in the same way. -/
namespace TokenShell

/-- None of the texts holds a line break. -/
def Bytes.OneLine (texts : List Bytes) : Prop := ∀ text ∈ texts, Bytes.newline ∉ text

instance : DecidablePred Bytes.OneLine := fun _ => inferInstanceAs (Decidable (∀ _ ∈ _, _ ∉ _))

namespace Bytes

variable {texts texts' : List Bytes} {sep text : Bytes}

theorem oneLine_cons : OneLine (text :: texts) ↔ newline ∉ text ∧ OneLine texts :=
  List.forall_mem_cons

theorem oneLine_append : OneLine (texts ++ texts') ↔ OneLine texts ∧ OneLine texts' :=
  List.forall_mem_append

theorem newline_not_mem_join (hs : newline ∉ sep) (h : OneLine texts) :
    newline ∉ join sep texts := by
  induction texts with
  | nil => exact List.not_mem_nil
  | cons text texts ih =>
    obtain ⟨ht, hts⟩ := oneLine_cons.mp h
    have hrest := ih hts
    cases texts with
    | nil => simpa [join] using ht
    | cons text' texts => simpa [join, ht, hs] using hrest

theorem newline_not_mem_decimal (n : Nat) : newline ∉ decimal n := by
  intro hm
  obtain ⟨c, hc, he⟩ := List.mem_map.mp hm
  have hdigit := Nat.isDigit_of_mem_toDigits (by omega) (by omega) hc
  simp only [Char.isDigit, Bool.and_eq_true, decide_eq_true_eq, ge_iff_le,
    UInt32.le_iff_toNat_le] at hdigit
  change 48 ≤ c.val.toNat ∧ c.val.toNat ≤ 57 at hdigit
  have hbyte : c.val.toNat % 256 = 10 := congrArg UInt8.toNat he
  omega

theorem newline_not_mem_zeroFilled (width n : Nat) : newline ∉ zeroFilled width n := by
  rw [zeroFilled, List.mem_append, not_or]
  refine ⟨?_, newline_not_mem_decimal n⟩
  intro hm
  exact absurd (List.eq_of_mem_replicate hm) (by decide)

end Bytes

theorem Clock.newline_not_mem_stamp (millis : Int) : Bytes.newline ∉ Clock.stamp millis := by
  have hsep : Bytes.newline ≠ 0x2d ∧ Bytes.newline ≠ 0x7c ∧ Bytes.newline ≠ 0x3a ∧
      Bytes.newline ≠ 0x2e := by decide
  simp [Clock.stamp, Bytes.newline_not_mem_zeroFilled, hsep]

namespace Log

namespace Scalar

theorem newline_not_mem_written (v : Scalar) : Bytes.newline ∉ v.written := by
  have hplain : Bytes.newline ∉
      if v.text.isEmpty || v.text.any isDelimiter then Text.quoted v.text else v.text := by
    split
    case isTrue => exact Text.newline_not_mem_quoted v.text
    case isFalse hno =>
      intro hm
      apply hno
      rw [Bool.or_eq_true, List.any_eq_true]
      exact Or.inr ⟨_, hm, by decide⟩
  cases v with
  | time n => exact Clock.newline_not_mem_stamp n
  | _ => exact hplain

/-- A string is quoted, or it is written as it is and has no quote in it. -/
theorem written_string (s : Bytes) : (string s).written = Text.quoted s ∨
    (string s).written = s ∧ s.any isDelimiter = false := by
  have hw : (string s).written =
      if s.isEmpty || s.any isDelimiter then Text.quoted s else s := rfl
  rw [hw]
  split
  case isTrue => exact Or.inl rfl
  case isFalse hno =>
    rw [Bool.not_eq_true, Bool.or_eq_false_iff] at hno
    exact Or.inr ⟨rfl, hno.2⟩

theorem written_string_injective {s s' : Bytes} (h : (string s).written = (string s').written) :
    s = s' := by
  have hbare : ∀ t t' : Bytes, t.any isDelimiter = false → t ≠ Text.quoted t' := by
    rintro t t' ht rfl
    simp [Text.quoted, isDelimiter] at ht
  rcases written_string s with hs | ⟨hs, hno⟩
  · rcases written_string s' with hs' | ⟨hs', hno'⟩
    · rw [hs, hs'] at h
      exact Text.quoted_injective h
    · rw [hs, hs'] at h
      exact (hbare s' s hno' h.symm).elim
  · rcases written_string s' with hs' | ⟨hs', -⟩
    · rw [hs, hs'] at h
      exact (hbare s s' hno h).elim
    · rwa [hs, hs'] at h

end Scalar

namespace Attr

variable {s s' outer : Bytes} {as as' : List Attr}

mutual

/-- The keys in an attribute, those of groups included. -/
def names : Attr → List Bytes
  | single key _ => [key]
  | group key members => key :: namesAll members

def namesAll : List Attr → List Bytes
  | [] => []
  | a :: as => a.names ++ namesAll as

end

theorem newline_not_mem_qualified {key : Bytes} (ho : Bytes.newline ∉ outer)
    (hk : Bytes.newline ∉ key) : Bytes.newline ∉ qualified outer key := by
  have hdot : Bytes.newline ≠ 0x2e := by decide
  unfold qualified
  split
  · exact hk
  · simp [ho, hk, hdot]

mutual

theorem newline_not_mem_written (a : Attr) (outer : Bytes) (ho : Bytes.newline ∉ outer)
    (h : Bytes.OneLine a.names) : Bytes.newline ∉ a.written outer := by
  cases a with
  | single key value =>
    have hkey := newline_not_mem_qualified ho (h key (List.mem_singleton_self key))
    have hvalue := value.newline_not_mem_written
    have hsep : Bytes.newline ≠ 0x20 ∧ Bytes.newline ≠ 0x3d := by decide
    rw [written]
    split
    · exact List.not_mem_nil
    · simp [hkey, hvalue, hsep]
  | group key members =>
    obtain ⟨hkey, hmembers⟩ := Bytes.oneLine_cons.mp h
    exact newline_not_mem_writtenAll members _ (newline_not_mem_qualified ho hkey) hmembers

theorem newline_not_mem_writtenAll (as : List Attr) (outer : Bytes) (ho : Bytes.newline ∉ outer)
    (h : Bytes.OneLine (namesAll as)) : Bytes.newline ∉ writtenAll outer as := by
  cases as with
  | nil => exact List.not_mem_nil
  | cons a as =>
    obtain ⟨ha, has⟩ := Bytes.oneLine_append.mp h
    rw [writtenAll, List.mem_append, not_or]
    exact ⟨newline_not_mem_written a outer ho ha, newline_not_mem_writtenAll as outer ho has⟩

end

theorem oneLine_under {a : Attr} (ho : Bytes.newline ∉ outer) (h : Bytes.OneLine a.names) :
    Bytes.OneLine (a.under outer).names := by
  cases a with
  | single key value =>
    obtain ⟨hkey, hnone⟩ := Bytes.oneLine_cons.mp h
    exact Bytes.oneLine_cons.mpr ⟨newline_not_mem_qualified ho hkey, hnone⟩
  | group key members =>
    obtain ⟨hkey, hmembers⟩ := Bytes.oneLine_cons.mp h
    exact Bytes.oneLine_cons.mpr ⟨newline_not_mem_qualified ho hkey, hmembers⟩

theorem oneLine_underAll (ho : Bytes.newline ∉ outer) (h : Bytes.OneLine (namesAll as)) :
    Bytes.OneLine (namesAll (as.map (under outer))) := by
  induction as with
  | nil => exact h
  | cons a as ih =>
    obtain ⟨ha, has⟩ := Bytes.oneLine_append.mp h
    exact Bytes.oneLine_append.mpr ⟨oneLine_under ho ha, ih has⟩

theorem namesAll_append (as bs : List Attr) : namesAll (as ++ bs) = namesAll as ++ namesAll bs := by
  induction as with
  | nil => rfl
  | cons a as ih => rw [List.cons_append, namesAll, namesAll, ih, List.append_assoc]

/-- Attributes that differ in one string value only, in whatever group it stands. -/
inductive Varied (s s' : Bytes) : List Attr → List Attr → Prop where
  | here (key : Bytes) (as : List Attr) :
      Varied s s' (single key (.string s) :: as) (single key (.string s') :: as)
  | inside {ms ms' : List Attr} (key : Bytes) (as : List Attr) (h : Varied s s' ms ms') :
      Varied s s' (group key ms :: as) (group key ms' :: as)
  | later {as as' : List Attr} (a : Attr) (h : Varied s s' as as') :
      Varied s s' (a :: as) (a :: as')

/-- The two values are written in the same place, and all else is written alike. -/
theorem Varied.written (h : Varied s s' as as') (outer : Bytes) : ∃ front back,
    writtenAll outer as = front ++ ((Scalar.string s).written ++ back) ∧
    writtenAll outer as' = front ++ ((Scalar.string s').written ++ back) := by
  induction h generalizing outer with
  | here key as =>
    refine ⟨0x20 :: qualified outer key ++ [0x3d], writtenAll outer as, ?_, ?_⟩
    all_goals simp [writtenAll, Attr.written, isBlank]
  | inside key as _ ih =>
    obtain ⟨front, back, hw, hw'⟩ := ih (qualified outer key)
    refine ⟨front, back ++ writtenAll outer as, ?_, ?_⟩
    · simp [writtenAll, Attr.written, hw]
    · simp [writtenAll, Attr.written, hw']
  | later a _ ih =>
    obtain ⟨front, back, hw, hw'⟩ := ih outer
    refine ⟨a.written outer ++ front, back, ?_, ?_⟩
    · simp [writtenAll, hw]
    · simp [writtenAll, hw']

theorem Varied.writtenAll_ne (h : Varied s s' as as') (hs : s ≠ s') (outer : Bytes) :
    writtenAll outer as ≠ writtenAll outer as' := by
  intro he
  obtain ⟨front, back, hw, hw'⟩ := h.written outer
  rw [hw, hw', List.append_cancel_left_eq, List.append_cancel_right_eq] at he
  exact hs (Scalar.written_string_injective he)

end Attr

/-- The message of a record and the keys in it. -/
def Record.names (r : Record) : List Bytes := r.message :: Attr.namesAll r.attrs

theorem oneLine_record (e : Event) : Bytes.OneLine e.record.names := by
  cases e <;>
    simp only [Event.record, Event.text, Event.number, Event.problem, Record.names, Attr.namesAll,
      Attr.names, List.append_nil] <;>
    decide

namespace Handler

variable {h : Handler} {r : Record} {as : List Attr} {g : Bytes} {e : Event} {events : List Event}

/-- The open groups of a handler and the keys attached to it. -/
def names (h : Handler) : List Bytes := h.groups ++ Attr.namesAll h.attrs

theorem newline_not_mem_outer (hn : Bytes.OneLine h.names) : Bytes.newline ∉ h.outer :=
  Bytes.newline_not_mem_join (by decide) (Bytes.oneLine_append.mp hn).1

theorem oneLine_withAttrs (hn : Bytes.OneLine h.names) (has : Bytes.OneLine (Attr.namesAll as)) :
    Bytes.OneLine (h.withAttrs as).names := by
  obtain ⟨hgroups, hattrs⟩ := Bytes.oneLine_append.mp hn
  have hunder := Attr.oneLine_underAll (newline_not_mem_outer hn) has
  rw [names, withAttrs, Attr.namesAll_append, Bytes.oneLine_append, Bytes.oneLine_append]
  exact ⟨hgroups, hattrs, hunder⟩

theorem oneLine_withGroup (hn : Bytes.OneLine h.names) (hg : Bytes.newline ∉ g) :
    Bytes.OneLine (h.withGroup g).names := by
  unfold withGroup
  split
  · exact hn
  · obtain ⟨hgroups, hattrs⟩ := Bytes.oneLine_append.mp hn
    rw [names, Bytes.oneLine_append, Bytes.oneLine_append]
    refine ⟨⟨hgroups, ?_⟩, hattrs⟩
    simpa [Bytes.OneLine] using hg

theorem newline_not_mem_levelTag (h : Handler) (l : Level) : Bytes.newline ∉ h.levelTag l := by
  have htag : Bytes.newline ∉ (tag l).1 := by
    unfold tag
    split_ifs <;> decide
  unfold levelTag
  split
  · exact htag
  · next p _ => exact p.oneLine _ _ htag

/-- A record is written on a line of its own. -/
theorem line_oneLine (hn : Bytes.OneLine h.names) (hr : Bytes.OneLine r.names) :
    ∃ body, h.line r = body ++ [Bytes.newline] ∧ Bytes.newline ∉ body := by
  refine ⟨_, rfl, ?_⟩
  obtain ⟨hmessage, hattrs⟩ := Bytes.oneLine_cons.mp hr
  have htag := h.newline_not_mem_levelTag r.level
  have hstamp := Clock.newline_not_mem_stamp (r.time.getD h.now)
  have hattached := Attr.newline_not_mem_writtenAll h.attrs [] List.not_mem_nil
    (Bytes.oneLine_append.mp hn).2
  have hown := Attr.newline_not_mem_writtenAll r.attrs h.outer (newline_not_mem_outer hn) hattrs
  have hopen : Bytes.newline ∉ Bytes.ofString " [" := by decide
  have hclose : Bytes.newline ∉ Bytes.ofString "] " := by decide
  simp only [List.mem_append, not_or]
  exact ⟨⟨⟨⟨⟨⟨htag, hopen⟩, hstamp⟩, hclose⟩, hmessage⟩, hattached⟩, hown⟩

theorem lines_log (hn : Bytes.OneLine h.names) (events : List Event) :
    Bytes.lines (h.lines events) =
      (events.filter fun e => h.enabled e.record.level).map fun e => h.line e.record := by
  induction events with
  | nil => rfl
  | cons e events ih =>
    rw [lines, List.flatMap_cons, ← lines]
    by_cases he : h.enabled e.record.level = true
    · obtain ⟨body, hline, hbody⟩ := line_oneLine hn (oneLine_record e)
      rw [if_pos he, List.filter_cons, if_pos he, List.map_cons, hline, List.append_assoc,
        List.singleton_append, Bytes.lines_line hbody, ih]
    · rw [if_neg he, List.filter_cons, if_neg he, List.nil_append, ih]

/-- Unless a message, key or group name holds a line break, a record is one line, so every line of a
log is one event; and no two strings are written alike. -/
theorem log_lines_unforgeable (hn : Bytes.OneLine h.names) :
    (∀ r : Record, Bytes.OneLine r.names →
      ∃ body, h.line r = body ++ [Bytes.newline] ∧ Bytes.newline ∉ body) ∧
    (∀ e : Event, Bytes.OneLine e.record.names) ∧
    (∀ events : List Event, Bytes.lines (h.lines events) =
      (events.filter fun e => h.enabled e.record.level).map fun e => h.line e.record) ∧
    (∀ as, Bytes.OneLine (Attr.namesAll as) → Bytes.OneLine (h.withAttrs as).names) ∧
    (∀ g, Bytes.newline ∉ g → Bytes.OneLine (h.withGroup g).names) ∧
    Function.Injective (fun s => (Scalar.string s).written) ∧
    ∀ (r : Record) (s s' : Bytes) (as as' : List Attr), s ≠ s' → Attr.Varied s s' as as' →
      h.line { r with attrs := as } ≠ h.line { r with attrs := as' } ∧
      { h with attrs := as }.line r ≠ { h with attrs := as' }.line r := by
  refine ⟨fun r => line_oneLine hn, oneLine_record, lines_log hn, fun as => oneLine_withAttrs hn,
    fun g => oneLine_withGroup hn, fun s s' => Scalar.written_string_injective, ?_⟩
  intro r s s' as as' hs hv
  refine ⟨?_, ?_⟩
  · intro he
    apply hv.writtenAll_ne hs h.outer
    simpa [line] using he
  · intro he
    apply hv.writtenAll_ne hs []
    simpa [line, levelTag, outer] using he

/-- Values with line breaks and one that looks like a log line, attached to the handler, in a group
and in events, and two values that differ in a blank. -/
theorem log_lines_unforgeable_lineBreaks :
    let h := (({ level := debug, paint := some Terminal.paint } : Handler).withAttrs
      [.single "session" (.string "\n")]).withGroup "eval"
    let forged := Bytes.ofString "0\nEROR [01-01|00:00:00.000] forged"
    let r : Record := ⟨warn, "insert failed, resetting", [.single "token" (.string "ID:'\n'"),
      .group "g" [.single "err" (.error forged), .single "k" (.string "\\n\"")]], none⟩
    Bytes.OneLine h.names ∧ Bytes.OneLine r.names ∧
    (∃ body, h.line r = body ++ [Bytes.newline] ∧ Bytes.newline ∉ body) ∧
    Bytes.lines (h.lines [.dispatching 1 "a\nb", .statusLine "a\nb" forged]) =
      [h.line (Event.dispatching 1 "a\nb").record, h.line (Event.statusLine "a\nb" forged).record] ∧
    h.line { r with attrs := [.group "g" [.single "k" .nil, .single "s" (.string "a b")]] } ≠
      h.line { r with attrs := [.group "g" [.single "k" .nil, .single "s" (.string "a\tb")]] } := by
  intro h forged r
  have hn : Bytes.OneLine h.names := by decide +kernel
  have hr : Bytes.OneLine r.names := by decide +kernel
  obtain ⟨hline, -, hlines, -, -, -, hdiffer⟩ := log_lines_unforgeable hn
  exact ⟨hn, hr, hline r hr, hlines _,
    (hdiffer r "a b" "a\tb" _ _ (by decide +kernel) (.inside _ _ (.later _ (.here _ _)))).1⟩

end Handler

end Log

end TokenShell
