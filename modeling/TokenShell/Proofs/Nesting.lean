import Mathlib.Data.List.Induction
import TokenShell.Proofs.Basic

/-! The grammar of nesting, and the machine that follows it token by token. -/
namespace TokenShell

/-- A token that is no marker. -/
def Token.Plain (tok : Token) : Prop := ∀ m, tok.kind ≠ .marker m

theorem Token.kind_ofMarker (m : Marker) : (Token.ofMarker m).kind = .marker m := by
  cases m <;> decide

theorem Token.exists_plain : ∃ tok : Token, tok.Plain := by
  refine ⟨⟨LiteralKind.int.name, []⟩, fun m hm => ?_⟩
  have hk : Token.kind ⟨LiteralKind.int.name, []⟩ = .literal .int := by decide
  cases hk.symm.trans hm

/-- A node as its tokens make it. -/
def Node.bare (o : Token × Nat) (opener : Option Marker) (ks : List Node) : Node :=
  .mk { Label.ofToken o.1 o.2 with opener } ks

/-- The tokens that open a node, the one among them that makes it, its opener, and whether the node
holds statements: a parenthesis and a head, a brace, or a bracket. -/
inductive Opens : List (Token × Nat) → Token × Nat → Marker → Bool → Prop where
  | group {o h : Token × Nat} (ho : o.1.kind = .marker .openGroup) (hh : h.1.Plain) :
      Opens [o, h] h .openGroup false
  | block {o : Token × Nat} (ho : o.1.kind = .marker .openBlock) : Opens [o] o .openBlock true
  | command {o : Token × Nat} (ho : o.1.kind = .marker .openCommand) :
      Opens [o] o .openCommand false

/-- The words of the grammar with the nodes of their items. Terminators stand between statements
only, and nested items end with the marker that closes them. -/
inductive Phrase : Bool → List (Token × Nat) → List Node → Prop where
  | nil {b} : Phrase b [] []
  | leaf {b o os ns} (ho : o.1.Plain) (h : Phrase b os ns) :
      Phrase b (o :: os) (.bare o none [] :: ns)
  | terminator {o os ns} (ho : o.1.kind = .marker .terminator) (h : Phrase true os ns) :
      Phrase true (o :: os) ns
  | nested {b inner op o m m' c os rest ks ns} (ho : Opens op o m inner) (hk : Phrase inner os ks)
      (hc : c.1.kind = .marker m') (hm : m.closer? = some m') (h : Phrase b rest ns) :
      Phrase b (op ++ (os ++ c :: rest)) (.bare o (some m) ks :: ns)

/-- A derivation that may be unfinished: the nodes of the finished items at the top, the open nodes
with those of theirs, innermost first, and whether a parenthesis waits for its head. -/
structure Nesting where
  roots : List Node := []
  path : List Node := []
  awaits : Bool := false

namespace Nesting

/-- Whether statements are allowed at the innermost open node. -/
def inScope (s : Nesting) : Bool :=
  match s.path with
  | [] => true
  | p :: _ => p.isBlock

def push (s : Nesting) (n : Node) : Nesting :=
  match s.path with
  | [] => { s with roots := s.roots ++ [n] }
  | p :: path => { s with path := p.push n :: path }

def enter (s : Nesting) (n : Node) : Nesting := { s with path := n :: s.path, awaits := false }

def close (s : Nesting) (m : Marker) : Option Nesting :=
  if s.awaits then none
  else
    match s.path with
    | [] => none
    | p :: path => if p.closedBy m then some ({ s with path }.push p) else none

/-- One more token of a word. -/
def step (s : Nesting) (o : Token × Nat) : Option Nesting :=
  match o.1.kind with
  | .marker .openGroup => if s.awaits then none else some { s with awaits := true }
  | .marker .terminator => if s.awaits || !s.inScope then none else some s
  | .marker .closeGroup => s.close .closeGroup
  | .marker .closeBlock => s.close .closeBlock
  | .marker .closeCommand => s.close .closeCommand
  | .marker m => if s.awaits then none else some (s.enter (.bare o (some m) []))
  | _ =>
    if s.awaits then some (s.enter (.bare o (some .openGroup) []))
    else some (s.push (.bare o none []))

def run (s : Nesting) (os : List (Token × Nat)) : Option Nesting := os.foldlM step s

end Nesting

/-- The derivations of the beginnings of words: finished items, then a node that is open, and so on.
-/
inductive Unfinished : List (Token × Nat) → Nesting → Prop where
  | root {os ns} (h : Phrase true os ns) : Unfinished os { roots := ns }
  | awaiting {os s o} (h : Unfinished os s) (ha : s.awaits = false)
      (ho : o.1.kind = .marker .openGroup) : Unfinished (os ++ [o]) { s with awaits := true }
  | entered {pre s op o m inner os ks} (h : Unfinished pre s) (ha : s.awaits = false)
      (ho : Opens op o m inner) (hk : Phrase inner os ks) :
      Unfinished (pre ++ (op ++ os)) (s.enter (.bare o (some m) ks))

/-- A sequence that can be continued to a word of statements. -/
def Viable (toks : List Token) : Prop := ∃ rest ns, Phrase true ((toks ++ rest).zipIdx 1) ns

namespace Nesting

variable {s s' : Nesting} {o : Token × Nat} {os : List (Token × Nat)} {n : Node} {m : Marker}

theorem run_append (s : Nesting) (as bs : List (Token × Nat)) :
    s.run (as ++ bs) = s.run as >>= fun s => s.run bs := List.foldlM_append

theorem run_cons (h : s.step o = some s') : s.run (o :: os) = s'.run os := by
  rw [run, List.foldlM_cons, h]
  rfl

theorem run_none (h : s.step o = none) : s.run (o :: os) = none := by
  rw [run, List.foldlM_cons, h]
  rfl

theorem step_plain (ho : o.1.Plain) : s.step o =
    if s.awaits then some (s.enter (.bare o (some .openGroup) []))
    else some (s.push (.bare o none [])) := by
  unfold step
  split <;> first | rfl | exact absurd ‹_› (ho _)

theorem push_awaits (s : Nesting) (n : Node) : (s.push n).awaits = s.awaits := by
  unfold push
  split <;> rfl

theorem push_inScope (s : Nesting) (n : Node) : (s.push n).inScope = s.inScope := by
  unfold push
  split
  · next h => simp [inScope, h]
  · next p path h =>
    rw [inScope, inScope, h]
    rfl

theorem foldl_push_root (s : Nesting) (h : s.path = []) (ns : List Node) :
    ns.foldl push s = { s with roots := s.roots ++ ns } := by
  induction ns generalizing s with
  | nil => simp
  | cons n ns ih =>
    have hp : s.push n = { s with roots := s.roots ++ [n] } := by simp [push, h]
    rw [List.foldl_cons, hp, ih { s with roots := s.roots ++ [n] } h]
    simp

theorem foldl_push_enter (s : Nesting) (o : Token × Nat) (m : Option Marker) (js ks : List Node) :
    ks.foldl push (s.enter (.bare o m js)) = s.enter (.bare o m (js ++ ks)) := by
  induction ks generalizing js with
  | nil => simp
  | cons k ks ih =>
    have hp : (s.enter (.bare o m js)).push k = s.enter (.bare o m (js ++ [k])) := rfl
    rw [List.foldl_cons, hp, ih]
    simp

/-- An open node is closed by the marker that belongs to its opener, and by no other. -/
theorem close_enter (ha : s.awaits = false) (o : Token × Nat) (m m' : Marker) (ks : List Node) :
    (s.enter (.bare o (some m) ks)).close m' =
      if m.closer? = some m' then some (s.push (.bare o (some m) ks)) else none := by
  obtain ⟨roots, path, awaits⟩ := s
  obtain rfl : awaits = false := ha
  simp [close, enter, Node.closedBy, Node.bare]

theorem step_closer (ho : o.1.kind = .marker m) (hm : m.isCloser = true) :
    s.step o = s.close m := by
  unfold step
  rw [ho]
  cases m <;> first | rfl | cases hm

theorem isCloser_of_closer {m m' : Marker} (h : m.closer? = some m') : m'.isCloser = true := by
  cases m <;> simp [Marker.closer?] at h <;> subst h <;> rfl

end Nesting

namespace Opens

variable {s : Nesting} {op : List (Token × Nat)} {o : Token × Nat} {m : Marker} {inner : Bool}

theorem closer (h : Opens op o m inner) : ∃ m', m.closer? = some m' := by
  cases h <;> exact ⟨_, rfl⟩

theorem run (h : Opens op o m inner) (ha : s.awaits = false) :
    s.run op = some (s.enter (.bare o (some m) [])) := by
  cases h with
  | @group p _ ho hh =>
    have hp : s.step p = some { s with awaits := true } := by simp [Nesting.step, ho, ha]
    have ho : Nesting.step { s with awaits := true } o =
        some (s.enter (.bare o (some .openGroup) [])) := Nesting.step_plain hh
    rw [Nesting.run_cons hp, Nesting.run_cons ho]
    rfl
  | block ho =>
    have hp : s.step o = some (s.enter (.bare o (some .openBlock) [])) := by
      simp [Nesting.step, ho, ha]
    rw [Nesting.run_cons hp]
    rfl
  | command ho =>
    have hp : s.step o = some (s.enter (.bare o (some .openCommand) [])) := by
      simp [Nesting.step, ho, ha]
    rw [Nesting.run_cons hp]
    rfl

/-- The node holds statements if it is a block. -/
theorem isBlock (h : Opens op o m inner) (s : Nesting) (ks : List Node) :
    (s.enter (.bare o (some m) ks)).inScope = inner := by
  show (Node.bare o (some m) ks).isBlock = inner
  simp only [Node.isBlock, Node.bare, Node.form_mk, Label.ofToken, Form.ofToken]
  cases h with
  | group _ hh =>
    cases hk : o.1.kind with
    | marker m => exact (hh m hk).elim
    | _ => rfl
  | block ho => rw [ho]
  | command ho => rw [ho]

end Opens

namespace Phrase

variable {b : Bool} {as os : List (Token × Nat)} {ms ns : List Node}

theorem append (h : Phrase b as ms) (h' : Phrase b os ns) : Phrase b (as ++ os) (ms ++ ns) := by
  induction h with
  | nil => exact h'
  | leaf ho _ ih => exact .leaf ho (ih h')
  | terminator ho _ ih => exact .terminator ho (ih h')
  | nested ho hk hc hm _ _ ih =>
    have hn := Phrase.nested ho hk hc hm (ih h')
    simpa using hn

/-- The machine follows a phrase and puts its nodes under the innermost open one. -/
theorem run (h : Phrase b os ns) (s : Nesting) (ha : s.awaits = false)
    (hs : b = true → s.inScope = true) : s.run os = some (ns.foldl Nesting.push s) := by
  induction h generalizing s with
  | nil => rfl
  | @leaf b o os ns ho _ ih =>
    have hp : s.step o = some (s.push (.bare o none [])) := by
      rw [Nesting.step_plain ho, ha]
      rfl
    rw [Nesting.run_cons hp, ih _ (by rw [Nesting.push_awaits, ha]) (by
      rw [Nesting.push_inScope]
      exact hs)]
    rfl
  | @terminator o os ns ho _ ih =>
    have hp : s.step o = some s := by simp [Nesting.step, ho, ha, hs rfl]
    rw [Nesting.run_cons hp]
    exact ih s ha hs
  | @nested b inner op o m m' c os rest ks ns ho hk hc hm _ ihk ih =>
    have hinner := ihk (s.enter (.bare o (some m) [])) rfl (by
      rw [ho.isBlock]
      exact id)
    have hclose : Nesting.step (s.enter (.bare o (some m) ks)) c =
        some (s.push (.bare o (some m) ks)) := by
      rw [Nesting.step_closer hc (Nesting.isCloser_of_closer hm), Nesting.close_enter ha, if_pos hm]
    rw [Nesting.foldl_push_enter, List.nil_append] at hinner
    have hrest := ih (s.push (.bare o (some m) ks)) (by rw [Nesting.push_awaits, ha]) (by
      rw [Nesting.push_inScope]
      exact hs)
    rw [Nesting.run_append, ho.run ha]
    show Nesting.run _ (os ++ c :: rest) = _
    rw [Nesting.run_append, hinner]
    show Nesting.run _ (c :: rest) = _
    rw [Nesting.run_cons hclose, hrest]
    rfl

end Phrase

namespace Unfinished

variable {os us : List (Token × Nat)} {ms : List Node} {s s' : Nesting} {o : Token × Nat}
  {m : Marker}

/-- The machine follows every beginning of a word, and to its derivation. -/
theorem run (h : Unfinished os s) : Nesting.run {} os = some s := by
  induction h with
  | root h =>
    rw [h.run {} rfl fun _ => rfl, Nesting.foldl_push_root _ rfl]
    rfl
  | @awaiting os s o _ ha ho ih =>
    have hp : s.step o = some { s with awaits := true } := by simp [Nesting.step, ho, ha]
    rw [Nesting.run_append, ih]
    show Nesting.run s [o] = _
    rw [Nesting.run_cons hp]
    rfl
  | @entered pre s op o m inner os ks _ ha ho hk ih =>
    have hinner := hk.run (s.enter (.bare o (some m) [])) rfl (by
      rw [ho.isBlock]
      exact id)
    rw [Nesting.foldl_push_enter, List.nil_append] at hinner
    rw [Nesting.run_append, ih]
    show Nesting.run s (op ++ os) = _
    rw [Nesting.run_append, ho.run ha]
    exact hinner

/-- Finished items can be added at the innermost open node. -/
theorem extend (h : Unfinished os s) (ha : s.awaits = false) (hp : Phrase s.inScope us ms) :
    Unfinished (os ++ us) (ms.foldl Nesting.push s) := by
  cases h with
  | root h =>
    rw [Nesting.foldl_push_root _ rfl]
    exact .root (h.append hp)
  | awaiting _ _ _ => cases ha
  | @entered pre s op o m inner os ks h ha' ho hk =>
    rw [ho.isBlock] at hp
    rw [Nesting.foldl_push_enter, List.append_assoc, List.append_assoc]
    exact .entered h ha' ho (hk.append hp)

/-- Closing the innermost open node finishes an item of the node around it. -/
theorem close (h : Unfinished os s) (ho : o.1.kind = .marker m) (hc : s.close m = some s') :
    Unfinished (os ++ [o]) s' := by
  cases h with
  | root _ => simp [Nesting.close] at hc
  | awaiting _ _ _ => simp [Nesting.close] at hc
  | @entered pre s op p m₀ inner os ks h ha hop hk =>
    rw [Nesting.close_enter ha] at hc
    split at hc
    · next hm =>
      obtain rfl := Option.some.inj hc
      have hitem := h.extend ha (Phrase.nested hop hk ho hm .nil)
      simpa using hitem
    · cases hc

/-- A token that is no marker is a leaf, or the head that a parenthesis waits for. -/
theorem plain (h : Unfinished os s) (ho : o.1.Plain) (hs : s.step o = some s') :
    Unfinished (os ++ [o]) s' := by
  rw [Nesting.step_plain ho] at hs
  cases ha : s.awaits with
  | false =>
    rw [ha] at hs
    obtain rfl := Option.some.inj hs
    exact h.extend ha (.leaf ho .nil)
  | true =>
    rw [ha] at hs
    obtain rfl := Option.some.inj hs
    cases h with
    | awaiting h ha' hp =>
      have he := Unfinished.entered h ha' (.group hp ho) .nil
      rw [List.append_assoc]
      exact he
    | root _ | entered _ _ _ _ => cases ha

/-- Every token that the machine takes goes on with the derivation. -/
theorem step (h : Unfinished os s) (hs : s.step o = some s') : Unfinished (os ++ [o]) s' := by
  have hopen : ∀ {m inner}, s.awaits = false → Opens [o] o m inner →
      Unfinished (os ++ [o]) (s.enter (.bare o (some m) [])) := by
    intro m inner ha hop
    have he := Unfinished.entered h ha hop Phrase.nil
    simpa using he
  cases hk : o.1.kind with
  | marker m =>
    cases m with
    | openGroup =>
      simp only [Nesting.step, hk] at hs
      obtain ⟨ha, rfl⟩ : s.awaits = false ∧ { s with awaits := true } = s' := by simpa using hs
      exact .awaiting h ha hk
    | terminator =>
      simp only [Nesting.step, hk] at hs
      obtain ⟨⟨ha, hin⟩, rfl⟩ : (s.awaits = false ∧ s.inScope = true) ∧ s = s' := by simpa using hs
      have hp : Phrase s.inScope [o] [] := hin ▸ .terminator hk .nil
      exact h.extend ha hp
    | openBlock =>
      simp only [Nesting.step, hk] at hs
      obtain ⟨ha, rfl⟩ : s.awaits = false ∧ s.enter (.bare o (some .openBlock) []) = s' := by
        simpa using hs
      exact hopen ha (.block hk)
    | openCommand =>
      simp only [Nesting.step, hk] at hs
      obtain ⟨ha, rfl⟩ : s.awaits = false ∧ s.enter (.bare o (some .openCommand) []) = s' := by
        simpa using hs
      exact hopen ha (.command hk)
    | closeGroup | closeBlock | closeCommand =>
      rw [Nesting.step_closer hk rfl] at hs
      exact h.close hk hs
  | _ => exact h.plain (fun m hm => by cases hk.symm.trans hm) hs

/-- The machine gets only to derivations of what it has read. -/
theorem of_run (h : Nesting.run {} os = some s) : Unfinished os s := by
  induction os using List.reverseRecOn generalizing s with
  | nil =>
    obtain rfl := Option.some.inj h
    exact .root .nil
  | append_singleton os o ih =>
    rw [Nesting.run_append] at h
    obtain ⟨s₀, h₀, h⟩ := Option.bind_eq_some_iff.mp h
    have hs : s₀.step o = some s := by simpa [Nesting.run] using h
    exact (ih h₀).step hs

theorem completes_with (h : Unfinished os s) (ha : s.awaits = false) (hp : Phrase s.inScope us ms)
    (k : Nat) : ∃ rest ns, Phrase true (os ++ us ++ List.zipIdx rest k) ns := by
  induction h generalizing us ms k with
  | root h => exact ⟨[], _, by simpa using h.append hp⟩
  | awaiting _ _ _ _ => cases ha
  | @entered pre s op o m inner os ks h ha' ho hk ih =>
    rw [ho.isBlock] at hp
    obtain ⟨m', hm⟩ := ho.closer
    have hc : (Token.ofMarker m', k).1.kind = .marker m' := Token.kind_ofMarker m'
    obtain ⟨rest, ns, hw⟩ := ih ha' (.nested ho (hk.append hp) hc hm .nil) (k + 1)
    exact ⟨Token.ofMarker m' :: rest, ns, by simpa using hw⟩

/-- Every unfinished derivation can be finished: a parenthesis that waits is given a head, and what
is open is closed. -/
theorem completes (h : Unfinished os s) (k : Nat) :
    ∃ rest ns, Phrase true (os ++ List.zipIdx rest k) ns := by
  cases ha : s.awaits with
  | false => simpa using h.completes_with ha .nil k
  | true =>
    cases h with
    | root _ | entered _ _ _ _ => cases ha
    | @awaiting os s o h ha' ho =>
      obtain ⟨head, hhead⟩ := Token.exists_plain
      have hop : Opens [o, (head, k)] (head, k) .openGroup false := .group ho hhead
      have hc : (Token.ofMarker .closeGroup, k + 1).1.kind = .marker .closeGroup :=
        Token.kind_ofMarker _
      obtain ⟨rest, ns, hw⟩ := h.completes_with ha' (.nested hop .nil hc rfl .nil) (k + 2)
      exact ⟨head :: Token.ofMarker .closeGroup :: rest, ns, by simpa using hw⟩

end Unfinished

/-- The machine goes on exactly on what can be continued to a word. -/
theorem viable_iff (toks : List Token) :
    Viable toks ↔ ∃ s, Nesting.run {} (toks.zipIdx 1) = some s := by
  constructor
  · rintro ⟨rest, ns, h⟩
    have hrun := h.run {} rfl fun _ => rfl
    rw [List.zipIdx_append, Nesting.run_append] at hrun
    obtain ⟨s, hs, -⟩ := Option.bind_eq_some_iff.mp hrun
    exact ⟨s, hs⟩
  · rintro ⟨s, hs⟩
    obtain ⟨rest, ns, h⟩ := (Unfinished.of_run hs).completes (1 + toks.length)
    exact ⟨rest, ns, by rwa [List.zipIdx_append]⟩

end TokenShell
