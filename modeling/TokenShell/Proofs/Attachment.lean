import Mathlib.Data.List.Basic
import TokenShell.Log.Handler

/-! Attributes attached to a handler are written like those of a record, and an open group like a
group around the attributes of a record. -/
namespace TokenShell.Log

@[simp] theorem qualified_nil (key : Bytes) : qualified [] key = key := rfl

theorem qualified_ne_nil {outer : Bytes} (h : outer ≠ []) (key : Bytes) :
    qualified outer key ≠ [] := by
  cases outer with
  | nil => exact (h rfl).elim
  | cons b outer => simp [qualified]

namespace Attr

variable {outer : Bytes} {a : Attr} {as bs : List Attr}

theorem writtenAll_append (outer : Bytes) (as bs : List Attr) :
    writtenAll outer (as ++ bs) = writtenAll outer as ++ writtenAll outer bs := by
  induction as with
  | nil => rfl
  | cons a as ih => rw [List.cons_append, writtenAll, writtenAll, ih, List.append_assoc]

/-- A key below a group makes an attribute that is written even if it was blank. -/
theorem isBlank_under (h : outer ≠ []) (a : Attr) : (a.under outer).isBlank = false := by
  cases a with
  | single key value =>
    cases value <;> simp [under, isBlank, qualified_ne_nil h]
  | group key members => rfl

theorem written_under (a : Attr) (h : a.isBlank = false) :
    (a.under outer).written [] = a.written outer := by
  cases a with
  | single key value =>
    have hu : (single (qualified outer key) value).isBlank = false := by
      by_cases ho : outer = []
      · rw [ho]
        exact h
      · exact isBlank_under ho (single key value)
    simp only [under, written, h, hu, qualified_nil]
  | group key members => simp only [under, written, qualified_nil]

theorem under_nil (a : Attr) : a.under [] = a := by
  cases a <;> rfl

/-- A blank attribute that is written below a group takes up room. -/
theorem length_under (h : outer ≠ []) (a : Attr) :
    (a.written outer).length + (if a.isBlank then 1 else 0) ≤
      ((a.under outer).written []).length := by
  cases hb : a.isBlank with
  | false => simp [written_under a hb]
  | true =>
    have hu := isBlank_under h a
    cases a with
    | single key value =>
      simp only [under] at hu
      simp only [under, written, hb, hu]
      simp
    | group key members => cases hb

theorem length_underAll (h : outer ≠ []) (as : List Attr) :
    (writtenAll outer as).length + as.countP isBlank ≤
      (writtenAll [] (as.map (under outer))).length := by
  induction as with
  | nil => exact Nat.le_refl _
  | cons a as ih =>
    have ha := length_under h a
    rw [List.map_cons, writtenAll, writtenAll, List.length_append, List.length_append,
      List.countP_cons]
    omega

/-- Attributes moved below a group are written as they are inside the group, but for blank ones. -/
theorem writtenAll_under : writtenAll [] (as.map (under outer)) = writtenAll outer as ↔
    outer = [] ∨ ∀ a ∈ as, a.isBlank = false := by
  refine ⟨?_, ?_⟩
  · intro he
    by_cases ho : outer = []
    · exact Or.inl ho
    · have hlen := length_underAll ho as
      rw [he] at hlen
      refine Or.inr fun a ha => ?_
      have hnone := List.countP_eq_zero.mp (Nat.le_zero.mp (by omega : as.countP isBlank ≤ 0)) a ha
      simpa using hnone
  · rintro (rfl | hb)
    · rw [List.map_congr_left fun a _ => under_nil a, List.map_id']
    · induction as with
      | nil => rfl
      | cons a as ih =>
        obtain ⟨ha, has⟩ := List.forall_mem_cons.mp hb
        rw [List.map_cons, writtenAll, writtenAll, written_under a ha, ih has]

end Attr

namespace Handler

variable {h : Handler} {g : Bytes} {r : Record} {as : List Attr}

/-- The handlers that calls lead to. -/
inductive Derived : Handler → Prop where
  | fresh (level : Level) (paint : Option Paint) (now : Int) : Derived { level, paint, now }
  | withAttrs {h : Handler} (hd : Derived h) (as : List Attr) : Derived (h.withAttrs as)
  | withGroup {h : Handler} (hd : Derived h) (g : Bytes) : Derived (h.withGroup g)

theorem Derived.groups (hd : h.Derived) : ∀ g ∈ h.groups, g ≠ [] := by
  induction hd with
  | fresh _ _ _ => simp
  | withAttrs _ as ih => exact ih
  | @withGroup h _ g ih =>
    cases g with
    | nil => exact ih
    | cons b g =>
      intro k hk
      rcases List.mem_append.mp hk with hk | hk
      · exact ih k hk
      · obtain rfl := List.mem_singleton.mp hk
        exact List.cons_ne_nil b g

theorem Derived.outer_eq_nil (hd : h.Derived) : h.outer = [] ↔ h.groups = [] := by
  have hg := hd.groups
  cases hgs : h.groups with
  | nil => simp [outer, hgs, Bytes.join]
  | cons k gs =>
    have hk : k ≠ [] := hg k (by simp [hgs])
    cases gs <;> simp [outer, hgs, Bytes.join, hk]

theorem withGroup_of_ne_nil (hg : g ≠ []) :
    h.withGroup g = { h with groups := h.groups ++ [g] } := by
  simp [withGroup, hg]

theorem join_concat {gs : List Bytes} (h : gs ≠ []) (g : Bytes) :
    Bytes.join "." (gs ++ [g]) = Bytes.join "." gs ++ 0x2e :: g := by
  have hdot : Bytes.ofString "." = [0x2e] := by decide
  simp only [Bytes.join, hdot]
  induction gs with
  | nil => exact (h rfl).elim
  | cons k gs ih =>
    cases gs with
    | nil => simp
    | cons j gs =>
      have hcons := ih (List.cons_ne_nil j gs)
      simp only [List.cons_append] at hcons
      simp only [List.cons_append, List.intercalate_cons_cons, hcons, List.append_assoc]

/-- Opening a group puts its name at the end of the keys. -/
theorem Derived.outer_withGroup (hd : h.Derived) (hg : g ≠ []) :
    (h.withGroup g).outer = qualified h.outer g := by
  rw [withGroup_of_ne_nil hg, qualified]
  by_cases hgs : h.groups = []
  · simp [outer, hgs, Bytes.join]
  · have ho : h.outer ≠ [] := mt hd.outer_eq_nil.mp hgs
    rw [if_neg (by simpa using ho)]
    exact join_concat hgs g

theorem line_withAttrs_iff : (h.withAttrs as).line r = h.line { r with attrs := as ++ r.attrs } ↔
    Attr.writtenAll [] (as.map (Attr.under h.outer)) = Attr.writtenAll h.outer as := by
  let front := h.levelTag r.level ++ (" [" : Bytes) ++ Clock.stamp (r.time.getD h.now) ++
    ("] " : Bytes) ++ r.message ++ Attr.writtenAll [] h.attrs
  let back := Attr.writtenAll h.outer r.attrs ++ [Bytes.newline]
  have hattached : (h.withAttrs as).line r =
      front ++ (Attr.writtenAll [] (as.map (Attr.under h.outer)) ++ back) := by
    have hw := Attr.writtenAll_append [] h.attrs (as.map (Attr.under h.outer))
    simp only [line, withAttrs, hw, front, back, List.append_assoc]
    rfl
  have hrecorded : h.line { r with attrs := as ++ r.attrs } =
      front ++ (Attr.writtenAll h.outer as ++ back) := by
    have hw := Attr.writtenAll_append h.outer as r.attrs
    simp only [line, hw, front, back, List.append_assoc]
  rw [hattached, hrecorded, List.append_cancel_left_eq, List.append_cancel_right_eq]

theorem Derived.line_withGroup (hd : h.Derived) (hg : g ≠ []) (r : Record) :
    (h.withGroup g).line r = h.line { r with attrs := [.group g r.attrs] } := by
  have ho := hd.outer_withGroup hg
  rw [line, ho, withGroup_of_ne_nil hg, line]
  simp only [Attr.writtenAll, Attr.written, List.append_nil]
  rfl

/-- Attached attributes are written like the first ones of a record, just unless one is blank and a
group is open; an opened group like one around all attributes of the record. -/
theorem attachments_written_as_recorded (hd : h.Derived) (r : Record) :
    (∀ as : List Attr, (h.withAttrs as).line r = h.line { r with attrs := as ++ r.attrs } ↔
      h.groups = [] ∨ ∀ a ∈ as, a.isBlank = false) ∧
    ∀ g : Bytes, g ≠ [] →
      (h.withGroup g).line r = h.line { r with attrs := [.group g r.attrs] } := by
  refine ⟨?_, fun g hg => hd.line_withGroup hg r⟩
  intro as
  rw [line_withAttrs_iff, Attr.writtenAll_under, hd.outer_eq_nil]

/-- A handler with attributes attached before a group was opened and after. -/
def attachedTwice : Handler :=
  let named := ({ level := info } : Handler).withAttrs [.single "session" (.string "abc")]
  (named.withGroup "eval").withAttrs [.single "line" (.integer 3)]

/-- Groups inside groups, keys that are empty, and a blank attribute below them. -/
def nestedAttrs : List Attr :=
  [.group "cmd" [.single [] .nil, .group [] [.single "text" (.string "echo hi"), .group "none" []]],
    .single [] (.integer 1)]

theorem attachments_written_as_recorded_nested :
    attachedTwice.Derived ∧ attachedTwice.groups = ["eval"] ∧
    (∀ a ∈ nestedAttrs, a.isBlank = false) ∧
    (attachedTwice.withAttrs nestedAttrs).line ⟨warn, "m", [.single "n" .nil], some 0⟩ =
      attachedTwice.line ⟨warn, "m", nestedAttrs ++ [.single "n" .nil], some 0⟩ ∧
    (attachedTwice.withGroup "g").line ⟨warn, "m", nestedAttrs, some 0⟩ =
      attachedTwice.line ⟨warn, "m", [.group "g" nestedAttrs], some 0⟩ := by
  have hd : attachedTwice.Derived :=
    (((Derived.fresh info none 0).withAttrs _).withGroup _).withAttrs _
  have hb : ∀ a ∈ nestedAttrs, a.isBlank = false := by simp [nestedAttrs, Attr.isBlank]
  refine ⟨hd, by decide +kernel, hb, ?_, ?_⟩
  · exact ((attachments_written_as_recorded hd _).1 nestedAttrs).mpr (Or.inr hb)
  · exact (attachments_written_as_recorded hd _).2 "g" (by decide)

/-- In a group that is open, a blank attribute is written once it is attached. -/
theorem attached_blank_written :
    let h := ({ level := info } : Handler).withGroup "p"
    (h.withAttrs [.single [] .nil]).line ⟨info, "m", [], none⟩ ≠
      h.line ⟨info, "m", [.single [] .nil] ++ [], none⟩ := by
  decide +kernel

end Handler

end TokenShell.Log
