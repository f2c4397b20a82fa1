import Mathlib.Data.List.Induction
import Mathlib.Data.List.Perm.Basic
import TokenShell.Proofs.Discarding

/-! Nothing that is inserted gets lost, is doubled or leaves its place: nodes that are no operators
stay in order, and operators stay below the same node. -/
namespace TokenShell

/-- Whether a token makes an operator. -/
def Token.makesOperator (tok : Token) : Bool :=
  match tok.kind with
  | .operator _ | .word => true
  | _ => false

/-- Whether a token makes a node that is no operator. -/
def Token.makesOther (tok : Token) : Bool := tok.makesNode && !tok.makesOperator

theorem Token.makesNode_of_operator {tok : Token} (h : tok.makesOperator = true) :
    tok.makesNode = true := by
  unfold makesOperator at h
  unfold makesNode
  split at h
  · next hk => rw [hk]
  · next hk => rw [hk]
  · cases h

/-- An operator with its number, and the number of the nearest node above it that is no operator or
that is a group; none if that is the root. -/
abbrev Home := (Token × Nat) × Option Nat

/-- A home seen from further up. -/
def Home.below (above : Option Nat) (h : Home) : Home := (h.1, h.2.or above)

theorem Home.below_none (hs : List Home) : hs.map (Home.below none) = hs := by
  refine List.map_id'' (fun h => ?_) hs
  obtain ⟨e, a⟩ := h
  cases a <;> rfl

theorem Home.below_below (a b : Option Nat) (hs : List Home) :
    (hs.map (Home.below a)).map (Home.below b) = hs.map (Home.below (a.or b)) := by
  rw [List.map_map]
  refine List.map_congr_left fun h _ => ?_
  simp [Home.below, Option.or_assoc]

namespace Label

/-- The token of a node and its number. -/
def entry (l : Label) : Token × Nat := (l.token, l.serial)

/-- The number of a node that no operator leaves: one that is no operator, or a group. -/
def anchor? (l : Label) : Option Nat :=
  if !l.isOperator || l.isGrouping then some l.serial else none

def home (above : Option Nat) (l : Label) : List Home :=
  if l.isOperator then [(l.entry, above)] else []

def other (l : Label) : List (Token × Nat) := if l.isOperator then [] else [l.entry]

theorem anchor?_seed (l : Label) : l.seed.anchor? = l.anchor? := by
  rw [anchor?, anchor?, isOperator_seed, isGrouping_seed]
  rfl

theorem home_seed (above : Option Nat) (l : Label) : l.seed.home above = l.home above := by
  rw [home, home, isOperator_seed]
  rfl

theorem other_lasting : Lasting other where
  seed l := by
    rw [other, other, isOperator_seed]
    rfl
  chain l hl _ := by rw [other, if_pos hl]

theorem anchor?_chain {l : Label} (ho : l.isOperator = true) (hg : l.isGrouping = false) :
    l.anchor? = none := by
  simp [anchor?, ho, hg]

theorem isOperator_ofToken {tok : Token} (h : tok.makesNode = true) (serial : Nat) :
    (ofToken tok serial).isOperator = tok.makesOperator := by
  unfold Token.makesNode at h
  simp only [isOperator, ofToken, Form.ofToken, Token.makesOperator]
  cases hk : tok.kind with
  | marker m =>
    rw [hk] at h
    cases m <;> first | rfl | cases h
  | _ => rfl

end Label

namespace Node

variable {n m k : Node} {l : Label} {ks : List Node}

mutual

/-- The operators of a tree, each with its home. -/
def homes (above : Option Nat) : Node → List Home
  | mk l ks => l.home above ++ homesAll (l.anchor?.or above) ks

def homesAll (above : Option Nat) : List Node → List Home
  | [] => []
  | n :: ns => n.homes above ++ homesAll above ns

end

theorem homes_mk (above : Option Nat) (l : Label) (ks : List Node) :
    (mk l ks).homes above = l.home above ++ ks.flatMap (homes (l.anchor?.or above)) := by
  have hall : ∀ above, homesAll above ks = ks.flatMap (homes above) := by
    intro above
    induction ks with
    | nil => rfl
    | cons k ks ih => rw [homesAll, ih, List.flatMap_cons]
  rw [homes, hall]

theorem labels_mk (l : Label) (ks : List Node) : (mk l ks).labels = l :: ks.flatMap labels := by
  rw [labels, fold_mk, List.flatMap_def]
  rfl

/-- What labels show can be read off the list of all labels. -/
theorem gather_eq_labels {β : Type} (own : Label → List β) (n : Node) :
    n.gather own = n.labels.flatMap own := by
  induction n using induct with
  | h l ks ih =>
    rw [gather_mk, labels_mk, List.flatMap_cons, List.flatMap_assoc]
    exact congrArg _ (List.flatMap_congr ih)

theorem homes_fst (above : Option Nat) (n : Node) :
    (n.homes above).map Prod.fst = (n.labels.filter (·.isOperator)).map Label.entry := by
  induction n using induct generalizing above with
  | h l ks ih =>
    have hkids : (ks.flatMap (homes (l.anchor?.or above))).map Prod.fst =
        ((ks.flatMap labels).filter (·.isOperator)).map Label.entry := by
      rw [List.map_flatMap, List.filter_flatMap, List.map_flatMap]
      exact List.flatMap_congr fun k hk => ih k hk _
    rw [homes_mk, labels_mk, List.map_append, hkids, List.filter_cons, Label.home]
    split <;> rfl

/-! Homes from the leaves up, with the operators of a chain in order. -/

def lodge (l : Label) (parts : List (List Home)) : List Home :=
  match l.anchor?, parts with
  | none, [x, y] => x ++ l.home none ++ y
  | a, parts => l.home none ++ parts.flatten.map (Home.below a)

def lodgings (n : Node) : List Home := n.fold lodge

theorem lodge_faithful : Faithful (Label.home none) lodge where
  seed l := by
    funext parts
    rw [lodge.eq_def, lodge.eq_def, Label.anchor?_seed, Label.home_seed]
  unary l x ho hg := by simp [lodge, Label.anchor?_chain ho hg, Home.below_none]
  binary l x y ho hg := by simp [lodge, Label.anchor?_chain ho hg]

theorem lodgings_perm (l : Label) (ks : List Node) : (mk l ks).lodgings.Perm
    (l.home none ++ (ks.flatMap lodgings).map (Home.below l.anchor?)) := by
  rw [lodgings, fold_mk, List.flatMap_def]
  unfold lodge
  split
  · next x y ha hx =>
    have hx : ks.map lodgings = [x, y] := hx
    rw [hx, ha, Home.below_none]
    simp only [List.flatten_cons, List.flatten_nil, List.append_nil, List.append_assoc]
    exact (List.perm_append_comm_assoc _ _ _)
  · exact .refl _

theorem homes_perm (above : Option Nat) (n : Node) :
    (n.homes above).Perm (n.lodgings.map (Home.below above)) := by
  induction n using induct generalizing above with
  | h l ks ih =>
    have hown : (l.home none).map (Home.below above) = l.home above := by
      unfold Label.home
      split <;> rfl
    have hkids : (ks.flatMap (homes (l.anchor?.or above))).Perm
        ((ks.flatMap lodgings).map (Home.below (l.anchor?.or above))) := by
      rw [List.map_flatMap]
      exact List.Perm.flatMap_left _ fun k hk => ih k hk _
    have hl := (lodgings_perm l ks).map (Home.below above)
    rw [List.map_append, hown, Home.below_below] at hl
    rw [homes_mk]
    exact (hkids.append_left _).trans hl.symm

theorem lodgings_push (n k : Node) : (n.push k).lodgings.Perm
    (n.lodgings ++ k.lodgings.map (Home.below n.label.anchor?)) := by
  obtain ⟨l, ks⟩ := n
  have hp := lodgings_perm l (ks ++ [k])
  rw [List.flatMap_append, List.map_append, List.flatMap_singleton, ← List.append_assoc] at hp
  exact hp.trans ((lodgings_perm l ks).symm.append_right _)

theorem lodgings_setLabel (n : Node) {l : Label} (h : l.seed = n.label.seed) :
    (n.setLabel l).lodgings = n.lodgings := by
  obtain ⟨m, ks⟩ := n
  have hg : lodge l = lodge m := by rw [← lodge_faithful.seed l, h, lodge_faithful.seed]; rfl
  rw [setLabel_mk, lodgings, lodgings, fold_mk, fold_mk, hg]

theorem lodgings_sprout (tok : Token) (serial : Nat) (k : Site) (m : Option Marker) :
    (sprout tok serial k m).lodgings = (Label.ofToken tok serial).home none := by
  have hs : (sprout tok serial k m).lodgings = (ofToken tok serial).lodgings :=
    lodgings_setLabel (ofToken tok serial) (seed_sprout tok serial k m)
  rw [hs, ofToken, lodgings, fold_mk]
  simp [lodge]

end Node

namespace Tree

variable {t u : Tree} {tok : Token} {f : Option Failure} {n : Node} {path : List Node}

/-- The nearest open node that no operator leaves. -/
def anchorOf : List Node → Option Nat
  | [] => none
  | n :: path => n.label.anchor?.or (anchorOf path)

/-- The home of an operator that is inserted at the cursor. -/
def anchor (t : Tree) : Option Nat := anchorOf t.path

/-- The operators under open nodes. -/
def openLodgings : List Node → List Home
  | [] => []
  | n :: path => n.lodgings.map (Home.below (anchorOf path)) ++ openLodgings path

def lodgings (t : Tree) : List Home := t.fragments.flatMap Node.lodgings ++ openLodgings t.path

/-- Closing a node and putting it under its parent moves no operator. -/
theorem openLodgings_push (n p : Node) (path : List Node) :
    (openLodgings (p.push n :: path)).Perm (openLodgings (n :: p :: path)) := by
  have hp := (Node.lodgings_push p n).map (Home.below (anchorOf path))
  rw [List.map_append, Home.below_below] at hp
  simp only [openLodgings, anchorOf]
  refine (hp.append_right _).trans ?_
  rw [List.append_assoc]
  exact List.perm_append_comm_assoc _ _ _

theorem lodgings_append (t : Tree) (n : Node) :
    (t.append n).lodgings.Perm (t.lodgings ++ n.lodgings.map (Home.below t.anchor)) := by
  unfold append
  split
  · next h => simp [lodgings, h, anchor, anchorOf, openLodgings, Home.below_none]
  · next p path h =>
    have hp := openLodgings_push n p path
    simp only [lodgings, h, anchor, List.append_assoc]
    exact (hp.trans List.perm_append_comm).append_left _

theorem lodgings_leave (t : Tree) : t.leave.lodgings.Perm t.lodgings := by
  unfold leave
  split
  · exact .refl _
  · next n path h =>
    have hn : (n.shut t.clock).lodgings = n.lodgings := Node.lodgings_setLabel n rfl
    have ha := lodgings_append { t with path } (n.shut t.clock)
    rw [hn] at ha
    refine ha.trans ?_
    simp only [lodgings, anchor, h, openLodgings, List.append_assoc]
    exact List.perm_append_comm.append_left _

theorem lodgings_flush (t : Tree) : t.flush.tree.lodgings = t.lodgings := by
  rcases flush_cases t with ⟨-, js, new, he, hj⟩ | ⟨n, path, js, scope, hp, he, hj, -⟩
  · have hk : js.map Node.lodgings = t.fragments.map Node.lodgings :=
      Flushed.fold_passed Node.lodge_faithful hj
    rw [he]
    simp only [lodgings, List.flatMap_def, hk]
  · obtain ⟨l, ks⟩ := n
    have hn : ((Node.mk l js).setScope scope).lodgings = (Node.mk l ks).lodgings := by
      rw [Node.setScope_eq, Node.lodgings_setLabel _ (Node.seed_setScope _ _), Node.lodgings,
        Node.lodgings, Node.fold_mk, Node.fold_mk]
      exact congrArg _ (Flushed.fold_passed Node.lodge_faithful hj)
    rw [he]
    simp only [lodgings, hp, openLodgings, Node.label_mk, hn]

theorem Closing.lodgings (h : t.Closing tok u) : u.lodgings = t.lodgings := by
  obtain ⟨-, -, -, -, -, -, -, ⟨-, rfl⟩ | ⟨-, rfl, -⟩⟩ := h
  · rfl
  · exact lodgings_flush t

theorem openLodgings_sprout (tok : Token) (serial : Nat) (k : Node.Site) (m : Option Marker)
    (above : Option Nat) :
    (Node.sprout tok serial k m).lodgings.map (Home.below above) =
      (Label.ofToken tok serial).home above := by
  rw [Node.lodgings_sprout, Label.home, Label.home]
  split <;> rfl

/-- A token that makes a node adds it at home if it is an operator, and nothing else changes. -/
theorem Placed.lodgings (h : t.Placed tok u f) :
    (f = none → tok.makesNode = false) ∧ u.lodgings.Perm t.lodgings ∨ tok.makesNode = true ∧
      u.lodgings.Perm (t.lodgings ++ (Label.ofToken tok t.clock).home t.anchor) := by
  cases h with
  | refused f _ => exact Or.inl ⟨by simp, .refl _⟩
  | awaiting hk => exact Or.inl ⟨fun _ => by simp [Token.makesNode, hk], .refl _⟩
  | leaf k hk =>
    refine Or.inr ⟨Token.makesNode_plain hk, ?_⟩
    rw [← openLodgings_sprout tok t.clock k none]
    exact lodgings_append _ _
  | entered k m hm =>
    refine Or.inr ⟨Token.makesNode_opener hm, ?_⟩
    rw [← openLodgings_sprout tok t.clock k (some m)]
    simp only [Tree.lodgings, openLodgings, anchor, List.append_assoc]
    exact List.perm_append_comm.append_left _
  | flushed hk _ =>
    exact Or.inl ⟨fun _ => by simp [Token.makesNode, hk], by rw [lodgings_flush]⟩
  | blocked f n path _ _ _ => exact Or.inl ⟨by simp, by rw [lodgings_flush]⟩
  | left v hv =>
    refine Or.inl ⟨fun _ => hv.makesNode, ?_⟩
    rw [← hv.lodgings]
    exact lodgings_leave v
  | delivered v hv _ =>
    refine Or.inl ⟨fun _ => hv.makesNode, ?_⟩
    rw [lodgings_flush, ← hv.lodgings]
    exact lodgings_leave v

/-- The homes of the operators of the whole tree. -/
theorem roots_homes (t : Tree) : (t.roots.flatMap (Node.homes none)).Perm t.lodgings := by
  have hopen : ∀ (path : List Node) (n : Node),
      (path.foldl (fun n p => p.push n) n).lodgings.Perm (openLodgings (n :: path)) := by
    intro path
    induction path with
    | nil =>
      intro n
      simp [openLodgings, anchorOf, Home.below_none]
    | cons p path ih =>
      intro n
      rw [List.foldl_cons]
      exact (ih (p.push n)).trans (openLodgings_push n p path)
  have hroot : ∀ n : Node, (n.homes none).Perm n.lodgings := by
    intro n
    have hn := n.homes_perm none
    rwa [Home.below_none] at hn
  rw [roots, List.flatMap_append]
  refine List.Perm.append (List.Perm.flatMap_left _ fun n _ => hroot n) ?_
  cases hp : t.path with
  | nil => exact .refl _
  | cons n path =>
    simp only [openFragment, Option.toList_some, List.flatMap_singleton]
    exact (hroot _).trans (hopen path n)

end Tree

/-! Evaluation that does not fail. -/

theorem Progress.Pass.fold {σ β : Type} {d : Option (Dispatcher σ)} {m m' : Machine σ}
    {ns ns' : List Node} {vs : List Value} {w : Label → List β}
    {g : Label → List (List β) → List β} (hg : Faithful w g) (h : Pass d m ns ns' vs m') :
    ns'.map (Node.fold g) = ns.map (Node.fold g) := by
  induction h with
  | nil => rfl
  | skip _ _ ih => rw [List.map_cons, List.map_cons, ih]
  | @step m m' _ n n' _ _ _ _ _ _ hn _ ih =>
    obtain ⟨-, out, -, -, -, hok⟩ := Node.dispatches_evaluate d n m
    have hset := (hok n' (by rw [hn])).2
    rw [List.map_cons, List.map_cons, ih, Node.fold_outline hg hset.1]

/-- An evaluation that does not fail changes nothing that a faithful fold sees. -/
theorem Tree.evaluate_fold {σ β : Type} {d : Option (Dispatcher σ)} {t : Tree} {v : σ}
    {cancelled : Bool} {interrupts : List Bool} {w : Label → List β}
    {g : Label → List (List β) → List β} (hg : Faithful w g)
    (h : ∀ f, (t.evaluate d v cancelled interrupts).stop ≠ some (.failed f)) :
    (t.evaluate d v cancelled interrupts).tree.fragments.map (Node.fold g) =
      t.fragments.map (Node.fold g) := by
  obtain ⟨ks, ks', rest, rest', vs, m', m'', stop, hns, hpass, hend, ho⟩ :=
    Progress.of_cases d interrupts ⟨[t.globals], v, cancelled, []⟩ t.fragments
  have hrest : rest' = rest := by
    cases hend with
    | finished _ _ => rfl
    | interrupted _ _ _ => rfl
    | @failed n f m₁ _ _ _ _ _ =>
      refine (h f ?_).elim
      simp only [Tree.evaluate, ho]
  simp only [Tree.evaluate, ho]
  rw [hns, hrest, List.map_append, List.map_append, hpass.fold hg]

/-- The token that a call inserts. -/
def Call.token? : Call → Option Token
  | .insert tok => some tok
  | _ => none

/-- The tokens that calls insert, each with its number. -/
def Call.inserted (cs : List Call) : List (Token × Nat) := (cs.filterMap Call.token?).zipIdx 1

theorem Call.inserted_insert (cs : List Call) (tok : Token) :
    inserted (cs ++ [.insert tok]) = inserted cs ++ [(tok, (inserted cs).length + 1)] := by
  simp [inserted, token?, List.zipIdx_append, Nat.add_comm]

theorem Call.inserted_evaluate (cs : List Call) (cancelled : Bool) (interrupts : List Bool) :
    inserted (cs ++ [.evaluate cancelled interrupts]) = inserted cs := by
  simp [inserted, List.filterMap_cons, token?]

theorem Call.number_le {cs : List Call} {p : Token × Nat} (h : p ∈ inserted cs) :
    p.2 ≤ (inserted cs).length := by
  have hlt := List.snd_lt_add_of_mem_zipIdx h
  rw [inserted, List.length_zipIdx]
  omega

namespace Run

variable {σ : Type} {d : Option (Dispatcher σ)} {w : σ} {cs pre post : List Call} {c : Call}
  {tok : Token}

/-- Insertions and evaluations of which none fails. -/
structure Smooth (d : Option (Dispatcher σ)) (w : σ) (cs : List Call) : Prop where
  calls : .reset ∉ cs
  reports : ∀ p ∈ (of d w cs).reports, p.2 = none
  stops : ∀ f, some (.failed f) ∉ (of d w cs).stops

theorem reports_step (r : Run σ) (d : Option (Dispatcher σ)) (c : Call) :
    ∃ more, (r.step d c).reports = r.reports ++ more := by
  cases c with
  | insert tok => exact ⟨_, rfl⟩
  | reset => exact ⟨_, rfl⟩
  | evaluate cancelled interrupts => exact ⟨[], (List.append_nil _).symm⟩

theorem stops_step (r : Run σ) (d : Option (Dispatcher σ)) (c : Call) :
    ∃ more, (r.step d c).stops = r.stops ++ more := by
  cases c with
  | insert tok => exact ⟨[], (List.append_nil _).symm⟩
  | reset => exact ⟨[], (List.append_nil _).symm⟩
  | evaluate cancelled interrupts => exact ⟨_, rfl⟩

theorem Smooth.init (h : Smooth d w (cs ++ [c])) : Smooth d w cs := by
  obtain ⟨as, ha⟩ := reports_step (of d w cs) d c
  obtain ⟨bs, hb⟩ := stops_step (of d w cs) d c
  refine ⟨fun hc => h.calls (by simp [hc]), ?_, ?_⟩
  · intro p hp
    refine h.reports p ?_
    rw [of_concat, ha]
    exact List.mem_append_left _ hp
  · intro f hf
    refine h.stops f ?_
    rw [of_concat, hb]
    exact List.mem_append_left _ hf

/-- The tree after one more call that does not fail. -/
theorem Smooth.last (h : Smooth d w (cs ++ [c])) :
    (∃ tok, c = .insert tok ∧ ({ (of d w cs).tree with
        clock := (of d w cs).tree.clock + 1 }.Placed tok (of d w (cs ++ [c])).tree none)) ∨
      ∃ cancelled interrupts, c = .evaluate cancelled interrupts ∧
        (of d w (cs ++ [c])).tree =
          ((of d w cs).tree.evaluate d (of d w cs).world cancelled interrupts).tree ∧
        ∀ f, ((of d w cs).tree.evaluate d (of d w cs).world cancelled interrupts).stop ≠
          some (.failed f) := by
  cases c with
  | insert tok =>
    refine Or.inl ⟨tok, rfl, ?_⟩
    have hrep := h.reports (((of d w cs).tree.insert tok).events,
      ((of d w cs).tree.insert tok).failure) (by rw [of_concat]; simp [step])
    have hp := Tree.placed_place { (of d w cs).tree with clock := (of d w cs).tree.clock + 1 } tok
    rw [of_concat]
    rcases Tree.insert_tree (of d w cs).tree tok with ⟨hf, ht, -⟩ | ⟨f, -, -, hi⟩
    · rw [hf] at hp
      simp only [step, ht]
      exact hp
    · rw [hi] at hrep
      cases hrep
  | reset => exact (h.calls (by simp)).elim
  | evaluate cancelled interrupts =>
    refine Or.inr ⟨cancelled, interrupts, rfl, by rw [of_concat]; rfl, ?_⟩
    intro f hf
    refine h.stops f ?_
    rw [of_concat]
    simp [step, hf]

/-- What a tree holds of the tokens that were inserted. -/
structure Holds (t : Tree) (os : List (Token × Nat)) : Prop where
  clock : t.clock = os.length
  others : t.gather Label.other = os.filter (·.1.makesOther)
  operators : (t.lodgings.map Prod.fst).Perm (os.filter (·.1.makesOperator))

theorem Holds.place {t u : Tree} {os : List (Token × Nat)} (h : Holds t os)
    (hp : { t with clock := t.clock + 1 }.Placed tok u none) :
    Holds u (os ++ [(tok, os.length + 1)]) := by
  have hclock : u.clock = t.clock + 1 := hp.clock
  refine ⟨by simp [hclock, h.clock], ?_, ?_⟩
  · rcases hp.gather Label.other_lasting with ⟨hn, hg⟩ | ⟨hn, hg⟩
    · have hother : tok.makesOther = false := by simp [Token.makesOther, hn rfl]
      have hg : u.gather Label.other = t.gather Label.other := hg
      rw [hg, List.filter_append, List.filter_singleton, hother]
      simpa using h.others
    · have hg : u.gather Label.other =
          t.gather Label.other ++ (Label.ofToken tok (t.clock + 1)).other := hg
      rw [hg, List.filter_append, List.filter_singleton, ← h.others, ← h.clock, Label.other,
        Label.isOperator_ofToken hn, Token.makesOther, hn]
      cases tok.makesOperator <;> rfl
  · rcases hp.lodgings with ⟨hn, hg⟩ | ⟨hn, hg⟩
    · have hop : tok.makesOperator = false := by
        by_contra hop
        have hnode := Token.makesNode_of_operator (by simpa using hop)
        rw [hn rfl] at hnode
        cases hnode
      rw [List.filter_append, List.filter_singleton, hop]
      simpa using (hg.map Prod.fst).trans h.operators
    · refine (hg.map Prod.fst).trans ?_
      rw [List.filter_append, List.filter_singleton, List.map_append, ← h.clock]
      refine List.Perm.append h.operators (List.Perm.of_eq ?_)
      rw [Label.home, Label.isOperator_ofToken hn]
      cases tok.makesOperator <;> rfl

theorem lodgings_evaluate {t : Tree} {cancelled : Bool} {interrupts : List Bool}
    (h : ∀ f, (t.evaluate d w cancelled interrupts).stop ≠ some (.failed f)) :
    (t.evaluate d w cancelled interrupts).tree.lodgings = t.lodgings := by
  have hf : _ = t.fragments.map Node.lodgings := Tree.evaluate_fold Node.lodge_faithful h
  rw [Tree.lodgings, Tree.lodgings, List.flatMap_def, List.flatMap_def, ← hf]
  rfl

theorem Smooth.holds (h : Smooth d w cs) : Holds (of d w cs).tree (Call.inserted cs) := by
  induction cs using List.reverseRecOn with
  | nil => exact ⟨rfl, rfl, .refl _⟩
  | append_singleton cs c ih =>
    have hcs := ih h.init
    rcases h.last with ⟨tok, rfl, hp⟩ | ⟨cancelled, interrupts, rfl, ht, hstop⟩
    · rw [Call.inserted_insert]
      exact hcs.place hp
    · rw [Call.inserted_evaluate, ht]
      refine ⟨hcs.clock, ?_, ?_⟩
      · have hf := Tree.evaluate_fold Label.other_lasting.faithful hstop
        rw [← hcs.others, Tree.gather, Tree.gather, List.flatMap_def, List.flatMap_def]
        exact congrArg (fun x => List.flatten x ++ _) hf
      · rw [lodgings_evaluate hstop]
        exact hcs.operators

/-- An operator stays at the home it was inserted at, whatever comes after it. -/
theorem Smooth.home (h : Smooth d w (pre ++ .insert tok :: post))
    (ho : tok.makesOperator = true) (a : Option Nat) :
    ((tok, (Call.inserted pre).length + 1), a) ∈
        (of d w (pre ++ .insert tok :: post)).tree.lodgings ↔ a = (of d w pre).tree.anchor := by
  have hnode := Token.makesNode_of_operator ho
  -- entries of calls before a given one have smaller numbers
  have hbound : ∀ {cs}, Smooth d w cs → ∀ {q : Home}, q ∈ (of d w cs).tree.lodgings →
      q.1.2 ≤ (Call.inserted cs).length := by
    intro cs hcs q hq
    have hm := hcs.holds.operators.mem_iff.mp (List.mem_map_of_mem (f := Prod.fst) hq)
    exact Call.number_le (List.mem_filter.mp hm).1
  induction post using List.reverseRecOn with
  | nil =>
    have hpre := h.init
    rcases h.last with ⟨tok', heq, hp⟩ | ⟨_, _, heq, -⟩
    · obtain rfl : tok = tok' := by simpa using heq
      rcases hp.lodgings with ⟨hn, -⟩ | ⟨-, hl⟩
      · rw [hn rfl] at hnode
        cases hnode
      · rw [hl.mem_iff, List.mem_append, Label.home, if_pos (by
          rw [Label.isOperator_ofToken hnode, ho]), List.mem_singleton]
        have hclock := hpre.holds.clock
        constructor
        · rintro (hq | hq)
          · have := hbound hpre hq
            dsimp only at this
            omega
          · exact congrArg Prod.snd hq
        · rintro rfl
          refine Or.inr ?_
          simp [Label.entry, Label.ofToken, hclock]
          rfl
    · cases heq
  | append_singleton post c ih =>
    have heq : pre ++ .insert tok :: (post ++ [c]) = (pre ++ .insert tok :: post) ++ [c] := by simp
    rw [heq] at h ⊢
    have hcs := h.init
    refine Iff.trans ?_ (ih hcs)
    have hlen : (Call.inserted pre).length + 1 ≤
        (Call.inserted (pre ++ .insert tok :: post)).length := by
      simp [Call.inserted, Call.token?]
    rcases h.last with ⟨tok', rfl, hp⟩ | ⟨cancelled, interrupts, rfl, ht, hstop⟩
    · rcases hp.lodgings with ⟨-, hl⟩ | ⟨-, hl⟩
      · rw [hl.mem_iff]
        rfl
      · rw [hl.mem_iff, List.mem_append]
        refine or_iff_left ?_
        intro hq
        rw [Label.home] at hq
        split at hq
        · have hnum := congrArg (fun q : Home => q.1.2) (List.mem_singleton.mp hq)
          have hclock := hcs.holds.clock
          simp [Label.entry, Label.ofToken] at hnum
          omega
        · cases hq
    · rw [ht, lodgings_evaluate hstop]

theorem flatMap_other (ls : List Label) :
    ls.flatMap Label.other = (ls.filter (!·.isOperator)).map Label.entry := by
  induction ls with
  | nil => rfl
  | cons l ls ih =>
    rw [List.flatMap_cons, ih, List.filter_cons, Label.other]
    cases l.isOperator <;> rfl

theorem roots_gather (t : Tree) : (t.roots.flatMap Node.labels).flatMap Label.other =
    t.gather Label.other := by
  rw [Tree.gather, ← Tree.gather_openFragment, ← List.flatMap_append, ← Tree.roots,
    List.flatMap_assoc]
  exact List.flatMap_congr fun n _ => (n.gather_eq_labels _).symm

/-- As long as nothing fails, no token is lost: nodes that are no operators keep the order of their
tokens, and every operator is below the node it was inserted below. -/
theorem tokens_conserved (h : Smooth d w cs) :
    ((((of d w cs).tree.roots.flatMap Node.labels).filter (!·.isOperator)).map Label.entry =
      (Call.inserted cs).filter (·.1.makesOther)) ∧
    ((((of d w cs).tree.roots.flatMap Node.labels).filter (·.isOperator)).map Label.entry).Perm
      ((Call.inserted cs).filter (·.1.makesOperator)) ∧
    ∀ pre tok post, cs = pre ++ .insert tok :: post → tok.makesOperator = true →
      ∀ a, ((tok, (Call.inserted pre).length + 1), a) ∈
        (of d w cs).tree.roots.flatMap (Node.homes none) ↔ a = (of d w pre).tree.anchor := by
  have hholds := h.holds
  have hhomes := (of d w cs).tree.roots_homes
  refine ⟨?_, ?_, ?_⟩
  · rw [← flatMap_other, roots_gather, hholds.others]
  · have hfst : ((of d w cs).tree.roots.flatMap (Node.homes none)).map Prod.fst =
        (((of d w cs).tree.roots.flatMap Node.labels).filter (·.isOperator)).map Label.entry := by
      rw [List.map_flatMap, List.filter_flatMap, List.map_flatMap]
      exact List.flatMap_congr fun n _ => n.homes_fst none
    rw [← hfst]
    exact (hhomes.map Prod.fst).trans hholds.operators
  · rintro pre tok post rfl ho a
    rw [hhomes.mem_iff]
    exact h.home ho a

/-- The chain `1 * 2 + -3` in a block with all operators nested to the right, and an evaluation on
either side of the last token. -/
def chainInBlock : List Call :=
  [.insert ⟨"\x7b", []⟩, .insert ⟨"(", []⟩, .insert ⟨"STAR", []⟩, .insert ⟨"INT", "1"⟩,
    .insert ⟨"(", []⟩, .insert ⟨"PLUS", []⟩, .insert ⟨"INT", "2"⟩, .insert ⟨"(", []⟩,
    .insert ⟨"MINUS", []⟩, .insert ⟨"INT", "3"⟩, .insert ⟨")", []⟩, .insert ⟨")", []⟩,
    .insert ⟨")", []⟩, .evaluate false [], .insert ⟨"\x7d", []⟩, .evaluate false []]

theorem tokens_conserved_chainInBlock :
    Smooth (none : Option (Dispatcher Unit)) () chainInBlock ∧
      (((of (none : Option (Dispatcher Unit)) () chainInBlock).tree.roots.flatMap
        Node.labels).filter (!·.isOperator)).map Label.entry =
          [(⟨"\x7b", []⟩, 1), (⟨"INT", "1"⟩, 4), (⟨"INT", "2"⟩, 7), (⟨"INT", "3"⟩, 10)] ∧
      ∀ a, ((⟨"PLUS", []⟩, 6), a) ∈
        (of (none : Option (Dispatcher Unit)) () chainInBlock).tree.roots.flatMap
          (Node.homes none) ↔ a = some 1 := by
  have hsmooth : Smooth (none : Option (Dispatcher Unit)) () chainInBlock := by
    refine ⟨by simp [chainInBlock], by decide +kernel, ?_⟩
    have hstops : ∀ s ∈ (of (none : Option (Dispatcher Unit)) () chainInBlock).stops,
        s.isNone = true := by decide +kernel
    intro f hf
    cases hstops _ hf
  obtain ⟨hothers, -, hhomes⟩ := tokens_conserved hsmooth
  refine ⟨hsmooth, ?_, ?_⟩
  · rw [hothers]
    decide +kernel
  · have hplus := hhomes (chainInBlock.take 5) ⟨"PLUS", []⟩ (chainInBlock.drop 6) rfl rfl
    have hanchor : (of (none : Option (Dispatcher Unit)) () (chainInBlock.take 5)).tree.anchor =
        some 1 := by decide +kernel
    rw [hanchor] at hplus
    exact hplus

end Run

end TokenShell
