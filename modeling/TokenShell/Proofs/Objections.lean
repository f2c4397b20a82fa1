import TokenShell.Proofs.Lexical

/-! Names resolve lexically, and an insertion fails over a name exactly where a variable resolves to
no declaration or declares a name again. -/
namespace TokenShell

namespace Mention

variable {m : Mention} {ds es : List Declared} {dss : List (List Declared)}

/-- What is wrong with a variable among the declarations that it sees: its own scope declares the
name already, or no scope does. -/
def objection (m : Mention) (dss : List (List Declared)) : Option Cause :=
  if m.role = .declares then
    if m.knows (dss.headD []) then some (.nameConflict (dss.length - 1) m.name) else none
  else if m.resolve dss = none then some m.missing
  else none

theorem objection_congr (h : m.knows es = m.knows ds) :
    m.objection (es :: dss) = m.objection (ds :: dss) := by
  have hr : m.resolve (es :: dss) = m.resolve (ds :: dss) := resolve_congr [] h
  rw [objection, objection, hr, List.headD_cons, List.headD_cons, h]
  rfl

theorem objection_frames (m : Mention) (fs : List Frame) (dss : List (List Declared)) :
    ({ m with frames := fs } : Mention).objection dss = m.objection dss := by
  have hr := resolve_eq { m with frames := fs } m rfl rfl dss
  rw [objection, objection, hr]
  rfl

theorem length_sees (m : Mention) : m.sees.length = m.frames.length := by
  rw [sees]
  split
  · next hf => simp [hf]
  · next hf => simp [hf]

end Mention

namespace Sight

variable {x y : Sight} {xs before after : List Sight} {m p : Mention} {s : Scope} {os : Scopes}
  {f : Failure} {ds : List Declared} {dss : List (List Declared)} {a b : Nat}

/-- Analysis gets past a variable to which there is no objection, and to no other. -/
theorem Taken.objection (h : Taken os s (.mention m) y) (ho : m.isOuter = true)
    (hd : s.declares m.name = m.knows ds)
    (hl : Scopes.lookup m.name m.block (s :: os) = m.resolve (ds :: dss)) :
    m.objection (ds :: dss) = none := by
  cases h with
  | inner hi =>
    rw [isOuter, ho] at hi
    cases hi
  | found _ hr hk =>
    rw [Mention.objection, if_neg hr, ← hl, hk]
    simp
  | entered _ hr hk =>
    rw [Mention.objection, if_pos hr, List.headD_cons, ← hd, hk]
    simp

theorem Stuck.objection (h : Stuck os s (.mention m) f) (hc : Scopes.Chained (s :: os))
    (hn : dss.length = os.length) (hd : s.declares m.name = m.knows ds)
    (hl : Scopes.lookup m.name m.block (s :: os) = m.resolve (ds :: dss)) :
    ∃ c, m.objection (ds :: dss) = some c ∧ f = m.failure c := by
  cases h with
  | missing _ hr hk =>
    refine ⟨m.missing, ?_, rfl⟩
    rw [Mention.objection, if_neg hr, ← hl, hk, if_pos rfl]
  | conflict _ hr hk =>
    refine ⟨_, ?_, rfl⟩
    rw [Mention.objection, if_pos hr, List.headD_cons, ← hd, hk, if_pos rfl,
      Scopes.depth_chained hc, List.length_cons, hn]
    rfl

theorem Stuck.outer (h : Stuck os s x f) : ∃ m, x = .mention m ∧ m.isOuter = true := by
  cases h with
  | missing ho _ _ => exact ⟨_, rfl, ho⟩
  | conflict ho _ _ => exact ⟨_, rfl, ho⟩

theorem Stuck.stage (h : Stuck os s x f) : f.cause.stage = .scope := by
  cases h with
  | @missing m _ _ _ =>
    rw [Mention.failure, Mention.missing]
    split <;> rfl
  | conflict _ _ _ => rfl

theorem mapM_analyze_taken {ys : List Sight} {ss : Scopes}
    (h : (before ++ x :: after).mapM analyze (s :: os) = (.ok ys, ss)) :
    ∃ y, Taken os (s.extend (named before)) x y := by
  rcases hb : before.mapM analyze (s :: os) with ⟨e | zs, us⟩
  · rw [List.mapM_append, run_bind, hb] at h
    cases h
  · obtain ⟨rfl, -, -⟩ := mapM_analyze_ok hb
    rcases analyze_cases x (s.extend (named before)) os with ⟨y, -, hy⟩ | ⟨f, -, hf⟩
    · exact ⟨y, hy⟩
    · rw [mapM_analyze_stuck hb hf] at h
      cases h

/-- A variable stands before another one if it takes effect before. -/
theorem mem_before (h : (times (before ++ .mention m :: after)).Pairwise (· < ·))
    (hm : m.time = some b) (hp : .mention p ∈ before ++ .mention m :: after)
    (ht : p.time = some a) :
    .mention p ∈ before ↔ a < b := by
  rw [times_append, ← List.singleton_append, times_append] at h
  obtain ⟨-, hrest, hbefore⟩ := List.pairwise_append.mp h
  have hb : b ∈ times [.mention m] := mem_times (by simp) hm
  constructor
  · intro hp
    exact hbefore a (mem_times hp ht) b (List.mem_append_left _ hb)
  · intro hlt
    rcases List.mem_append.mp hp with hp | hp
    · exact hp
    · rcases List.mem_cons.mp hp with hp | hp
      · cases hp
        cases ht.symm.trans hm
        omega
      · have hgt := (List.pairwise_append.mp hrest).2.2 b hb a (mem_times hp ht)
        omega

theorem eq_of_time (h : (times xs).Pairwise (· < ·)) (hm : .mention m ∈ xs) (hp : .mention p ∈ xs)
    (htm : m.time = some a) (htp : p.time = some a) : p = m := by
  obtain ⟨before, after, rfl⟩ := List.append_of_mem hm
  rcases List.mem_append.mp hp with hin | hin
  · exact absurd ((mem_before h htm hp htp).mp hin) (Nat.lt_irrefl a)
  · rcases List.mem_cons.mp hin with hin | hin
    · cases hin
      rfl
    · rw [times_append, ← List.singleton_append, times_append] at h
      have hlt := (List.pairwise_append.mp (List.pairwise_append.mp h).2.1).2.2 a
        (mem_times (by simp) htm) a (mem_times hin htp)
      exact absurd hlt (Nat.lt_irrefl a)

end Sight

/-- A flush fails over a name exactly if analysis of the fragments before the first malformed one
does. -/
theorem Flushed.failure_scope (within : Option Nat) (os : Scopes) {ns : List Node} {f : Failure}
    (hn : ∀ n ∈ ns, n.Upper Label.Planted ∧ n.Kept) (s : Scope) :
    (of within (s :: os) ns).failure = some f ∧ f.cause.stage = .scope ↔
      ∃ us, ((ns.takeWhile fun n => (n.prepare within).isOk).flatMap (Node.sights false)).mapM
        Sight.analyze (s :: os) = (.error f, us) := by
  induction ns generalizing s with
  | nil =>
    constructor
    · rintro ⟨hf, -⟩
      cases hf
    · rintro ⟨us, h⟩
      cases h
  | cons n ns ih =>
    obtain ⟨hu, hk⟩ := hn n (by simp)
    rw [of, if_neg (by simp [hu.flags]), Node.cascade_run]
    cases hq : n.prepare within with
    | error e =>
      rw [List.takeWhile_cons_of_neg (by simp [hq, Except.isOk, Except.toBool])]
      constructor
      · rintro ⟨hf, hstage⟩
        cases hf
        exact (hu.stage_of_prepare hq hstage).elim
      · rintro ⟨us, h⟩
        cases h
    | ok q =>
      have hsights := Node.analyze_prepared hu hk.closed hq
      rw [List.takeWhile_cons_of_pos (by simp [hq, Except.isOk, Except.toBool]), List.flatMap_cons,
        List.mapM_append, run_bind]
      dsimp only
      rcases hc : q.analyze false (s :: os) with ⟨e | r, us⟩
      · have hrun : (n.sights false).mapM Sight.analyze (s :: os) = (.error e, us) := by
          rw [hsights, map_eq_pure_bind, run_bind, hc]
        rw [hrun]
        constructor
        · rintro ⟨hf, -⟩
          cases hf
          exact ⟨us, rfl⟩
        · rintro ⟨us, h⟩
          cases h
          obtain ⟨_, _, _, _, -, -, hx⟩ := Sight.mapM_analyze_error hrun
          exact ⟨rfl, hx.stage⟩
      · have hrun : (n.sights false).mapM Sight.analyze (s :: os) = (.ok (r.sights false), us) := by
          rw [hsights, map_eq_pure_bind, run_bind, hc]
          rfl
        obtain ⟨rfl, -, -⟩ := Sight.mapM_analyze_ok hrun
        have hrest := ih (fun k hk => hn k (by simp [hk])) (s.extend (Sight.named (n.sights false)))
        rw [hrun]
        dsimp only
        rw [hrest]
        refine exists_congr fun us => ?_
        rw [run_bind]
        split
        · next h =>
          rw [h]
          constructor <;> intro he <;> cases he
        · next h => rw [h]

namespace Tree

variable {t u v : Tree} {tok : Token} {f : Failure} {n : Node} {path rest : List Node} {s : Scope}
  {os : Scopes} {m : Mention}

theorem length_context (t : Tree) (path : List Node) :
    (t.context path).length = (path.filterMap Node.scope?).length + 1 := by
  induction path with
  | nil => rfl
  | cons n path ih =>
    obtain ⟨l, ks⟩ := n
    have hcons : t.context (Node.mk l ks :: path) = (Node.mk l ks).widen (t.context path) := rfl
    have hsome := Node.scope?_isSome (Node.mk l ks)
    rw [← Node.isBlock_label, Node.label_mk] at hsome
    rw [hcons, List.filterMap_cons]
    cases hb : l.isBlock with
    | true =>
      obtain ⟨s, hs⟩ := Option.isSome_iff_exists.mp (hsome.trans hb)
      rw [Node.widen_block hb, hs, List.length_cons, ih, List.length_cons]
    | false =>
      have hs : (Node.mk l ks).scope? = none := by simpa [hb] using hsome
      rw [Node.widen_other hb, hs, ih]

theorem length_scopes (hat : t.atScope = true) : t.scopes.length = t.beyond.length + 1 := by
  cases hp : t.path with
  | nil => simp [scopes, beyond, hp]
  | cons n rest =>
    rw [atScope, hp] at hat
    obtain ⟨s, hs⟩ := Option.isSome_iff_exists.mp ((Node.scope?_isSome n).trans hat)
    rw [scopes, beyond, hp, length_context, List.filterMap_cons, hs]
    simp

theorem knows_fragments (m : Mention) (gs hs : List Node) (k : Node) :
    m.knows (Node.declaredAll (gs ++ hs) ++ Sight.declared (k.sights false)) =
      m.knows (Node.declaredAll (gs ++ k :: hs)) := by
  have hparts := Sight.knows_parts (m := m) (gs.map (Node.sights false)) (k.sights false)
    (hs.map (Node.sights false))
  rw [← List.map_append, ← List.map_cons, ← List.map_append, ← List.flatMap_def,
    ← List.flatMap_def] at hparts
  exact hparts

/-- A variable of a fragment of the scope at the cursor sees all that is declared in this scope, and
what is declared beyond it. -/
theorem mention_collected (hat : t.atScope = true) {gs hs : List Node} {k : Node}
    (hcol : t.collected = gs ++ k :: hs) (hm : .mention m ∈ k.sights false) :
    ∃ fs, fs.length = t.scopes.length ∧
      ({ m with frames := m.frames ++ fs } : Mention) ∈ t.mentions ∧
      (m.isOuter = true → ∃ ds,
        ({ m with frames := m.frames ++ fs } : Mention).sees = ds :: t.beyond ∧
          m.knows ds = m.knows (Node.declaredAll t.collected)) := by
  rw [hcol, ← knows_fragments]
  cases hp : t.path with
  | nil =>
    refine ⟨[⟨t.globals.keys, Node.declaredAll (gs ++ hs), Sight.declared (k.sights false)⟩],
      by simp [scopes, hp], ?_, ?_⟩
    · have hroots : t.roots = gs ++ k :: hs := by
        simpa [Tree.roots, collected, hp, openFragment] using hcol
      have hin := mem_enclose_fragment t.globals.keys gs hs hm
      rw [← hroots] at hin
      exact mem_mentions.mpr hin
    · intro ho
      rw [beyond, hp]
      exact ⟨_, Mention.sees_within_outer ho, rfl⟩
  | cons n rest =>
    have hscopes := length_scopes hat
    rw [atScope, hp] at hat
    obtain ⟨l, ks⟩ := n
    obtain ⟨kind, s, hf⟩ := Label.isBlock_iff.mp (show l.isBlock = true from hat)
    simp only [collected, hp, Node.kids_mk] at hcol
    have hin := mem_enclose_fragment s.keys gs hs hm
    rw [← hcol] at hin
    have hblock : _ ∈ (Node.mk l ks).sights false :=
      Node.sights_block hf ▸ List.mem_append_left _ hin
    obtain ⟨fs, hmem, hsees⟩ := lift_mention hp hblock (Sight.isOuter_within _ (.mention m))
    rw [within_append] at hmem hsees
    refine ⟨_, ?_, hmem, ?_⟩
    · have hlen := congrArg List.length hsees
      simp only [List.length_append, Mention.length_sees, Mention.within, List.length_cons,
        List.length_nil] at hlen
      rw [hscopes, beyond, hp, List.length_cons]
      dsimp only
      omega
    · intro ho
      rw [hsees, Mention.sees_within_outer ho, beyond, hp]
      exact ⟨_, rfl, rfl⟩

/-- The fragments at the cursor that a flush would analyze if no name stood in the way: those before
the first one that is malformed. -/
def ripe (t : Tree) : List Node :=
  (t.collected.filter (!·.flags.analyzed)).takeWhile fun n => (n.prepare t.innerBlock).isOk

/-- The variables of these fragments, outside the blocks in them. -/
def upcoming (t : Tree) : List Mention :=
  t.mentions.filter fun m =>
    m.frames.length = t.scopes.length ∧ m.time.any (· ∈ t.ripe.flatMap Node.times)

/-- The failure over the first of these variables that something is wrong with. -/
def objection? (t : Tree) (sees : Mention → List (List Declared)) : Option Failure :=
  t.upcoming.findSome? fun m => (m.objection (sees m)).map m.failure

/-- The variables of a tree take effect in their order. -/
theorem Timed.roots (h : t.Timed) : (t.roots.flatMap Node.times).Sublist t.timeline := by
  have hopened := h.dated.opened
  clear h
  induction hl : t.path.length generalizing t with
  | zero =>
    have hp : t.path = [] := List.length_eq_zero_iff.mp hl
    simp [Tree.roots, timeline, hp, openFragment]
  | succ len ih =>
    obtain ⟨n, path, hp⟩ := List.exists_cons_of_length_eq_add_one hl
    have htimes : ({ t with path } : Tree).timeline ++ n.times = t.timeline := by
      simp [timeline, hp]
    have hpath : ∀ m ∈ path, m.label.closedAt = none := fun m hm => hopened m (by simp [hp, hm])
    have htuck : (({ t with path } : Tree).append n).timeline.Sublist t.timeline :=
      htimes ▸ timeline_append hpath n
    rw [← roots_tuck, tuck_cons hp]
    refine (ih ?_ ?_).trans htuck
    · exact forall_path_append hpath fun _ hm => hm
    · rw [hp, List.length_cons] at hl
      have hlen : path.length = len := by omega
      cases path <;> simpa [Tree.append] using hlen

theorem Timed.ordered (h : t.Timed) :
    (Sight.times (t.mentions.map .mention)).Pairwise (· < ·) := by
  have hm : Sight.times (t.mentions.map .mention) = t.roots.flatMap Node.times := by
    have hr : t.roots.flatMap Node.times =
        Sight.times (Sight.enclose t.globals.keys [] (t.roots.map (Node.sights false))) := by
      rw [Sight.times_enclose, ← List.flatMap_def, Node.times_flatMap]
    rw [hr, mentions, Sight.times, List.filterMap_map, List.filterMap_filterMap]
    refine List.filterMap_congr fun x _ => ?_
    cases x <;> rfl
  rw [hm]
  exact h.order.sublist h.roots

/-- A variable of a fragment and what it is in the whole tree. -/
structure Matches (t : Tree) (v m : Mention) : Prop where
  time : m.time = v.time
  token : m.token = v.token
  objection : m.objection m.sees = v.objection (Node.declaredAll t.collected :: t.beyond)

theorem matches_frames {fs : List Frame} {ds : List Declared}
    (hs : ({ m with frames := fs } : Mention).sees = ds :: t.beyond)
    (hk : m.knows ds = m.knows (Node.declaredAll t.collected)) :
    t.Matches m { m with frames := fs } where
  time := rfl
  token := rfl
  objection := by rw [Mention.objection_frames, hs, Mention.objection_congr hk]

theorem mem_ripe (h : n ∈ t.ripe) : n ∈ t.collected :=
  (List.mem_filter.mp (List.takeWhile_sublist _ |>.subset h)).1

theorem Poised.exists_upcoming (h : t.Poised) (hat : t.atScope = true)
    (hm : .mention m ∈ t.ripe.flatMap (Node.sights false)) (ho : m.isOuter = true) :
    ∃ p ∈ t.upcoming, t.Matches m p := by
  obtain ⟨k, hk, hmk⟩ := List.mem_flatMap.mp hm
  obtain ⟨gs, hs, hcol⟩ := List.append_of_mem (mem_ripe hk)
  obtain ⟨fs, hlen, hmem, hsees⟩ := mention_collected hat hcol hmk
  obtain ⟨ds, hsees, hknows⟩ := hsees ho
  have hdated := (h.timed.collected hat).2 _ (List.mem_flatMap.mpr ⟨k, mem_ripe hk, hmk⟩)
  obtain ⟨a, ha⟩ := Option.ne_none_iff_exists'.mp hdated
  have hframes : m.frames = [] := by simpa [Mention.isOuter] using ho
  rw [hframes, List.nil_append] at hmem hsees
  refine ⟨_, List.mem_filter.mpr ⟨hmem, ?_⟩, matches_frames hsees hknows⟩
  have hin : a ∈ t.ripe.flatMap Node.times := by
    rw [← Node.times_flatMap]
    exact Sight.mem_times hm ha
  simpa [hlen, ha] using hin

theorem Poised.exists_ripe (h : t.Poised) (hat : t.atScope = true) (hm : m ∈ t.upcoming) :
    ∃ v, .mention v ∈ t.ripe.flatMap (Node.sights false) ∧ v.isOuter = true ∧ t.Matches v m := by
  obtain ⟨hmem, hcond⟩ := List.mem_filter.mp hm
  obtain ⟨hlen, htime⟩ := of_decide_eq_true hcond
  obtain ⟨a, ha, hin⟩ : ∃ a, m.time = some a ∧ a ∈ t.ripe.flatMap Node.times := by
    simpa [Option.any_eq_true] using htime
  rw [← Node.times_flatMap] at hin
  obtain ⟨x, hx, hxa⟩ := List.mem_filterMap.mp hin
  cases x with
  | scope _ _ => cases hxa
  | mention v =>
    obtain ⟨k, hk, hvk⟩ := List.mem_flatMap.mp hx
    obtain ⟨gs, hs, hcol⟩ := List.append_of_mem (mem_ripe hk)
    obtain ⟨fs, hfs, hvm, hsees⟩ := mention_collected hat hcol hvk
    -- No other variable of the tree takes effect at the same time.
    obtain rfl := Sight.eq_of_time h.timed.ordered (List.mem_map_of_mem hvm)
      (List.mem_map_of_mem hmem) hxa ha
    have ho : v.isOuter = true := by
      simp only [List.length_append] at hlen
      simp only [Mention.isOuter, List.isEmpty_iff_length_eq_zero]
      omega
    obtain ⟨ds, hsees, hknows⟩ := hsees ho
    exact ⟨v, hx, ho, matches_frames hsees hknows⟩

theorem kind_scope (c : Cause) : c.kind = .scope ↔ c.stage = .scope := by
  cases c <;> simp [Cause.kind, Cause.stage]

/-- The fragments at the cursor are analyzed ones, and then those that a flush goes through. -/
theorem Poised.ripe_parts (h : t.Poised) (hat : t.atScope = true) (hs : t.scopes = s :: os) :
    ∃ rs ps, t.collected = rs ++ ps ∧ (∀ r ∈ rs, r.Settled) ∧
      (∀ p ∈ ps, p.Upper Label.Planted ∧ p.Kept) ∧
      t.ripe = ps.takeWhile fun n => (n.prepare t.innerBlock).isOk := by
  have hrec := h.kept.records hat hs
  obtain ⟨rs, ps, hcol, hr, hp⟩ := hrec.order
  refine ⟨rs, ps, hcol, hr, fun p hm => ⟨hp p hm, hrec.kept p (by simp [hcol, hm])⟩, ?_⟩
  have hrs : rs.filter (!·.flags.analyzed) = [] := by
    rw [List.filter_eq_nil_iff]
    intro r hm
    simp [(hr r hm).analyzed]
  have hps : ps.filter (!·.flags.analyzed) = ps := by
    rw [List.filter_eq_self]
    intro p hm
    simp [(hp p hm).flags]
  rw [ripe, hcol, List.filter_append, hrs, hps, List.nil_append]

/-- When analysis comes to a variable, it gets past it unless there is an objection. -/
theorem Poised.verdict (h : t.Poised) (hat : t.atScope = true) (hs : t.scopes = s :: os)
    {before after : List Sight}
    (hx : t.ripe.flatMap (Node.sights false) = before ++ .mention m :: after)
    (ho : m.isOuter = true) :
    (∀ y, Sight.Taken os (s.extend (Sight.named before)) (.mention m) y →
        m.objection (Node.declaredAll t.collected :: t.beyond) = none) ∧
      ∀ f, Sight.Stuck os (s.extend (Sight.named before)) (.mention m) f →
        ∃ c, m.objection (Node.declaredAll t.collected :: t.beyond) = some c ∧ f = m.failure c := by
  obtain ⟨rs, ps, hcol, hr, hp, hripe⟩ := h.ripe_parts hat hs
  have hps : ps.flatMap (Node.sights false) = before ++ .mention m :: (after ++
      (ps.dropWhile fun n => (n.prepare t.innerBlock).isOk).flatMap (Node.sights false)) := by
    conv_lhs => rw [← List.takeWhile_append_dropWhile (l := ps), List.flatMap_append, ← hripe, hx]
    simp
  obtain ⟨hd, hl⟩ := h.lookup_at hat hs hcol hr (fun p hm => (hp p hm).1) hps ho
  have hlen : t.beyond.length = os.length := by
    have hlen := length_scopes hat
    rw [hs, List.length_cons] at hlen
    omega
  have hchained : Scopes.Chained (s.extend (Sight.named before) :: os) := by
    have hc := h.moored.scopes.1
    rw [hs] at hc
    exact hc.extend _
  exact ⟨fun y hy => hy.objection ho hd hl, fun f hf => hf.objection hchained hlen hd hl⟩

theorem Poised.dated_ripe (h : t.Poised) (hat : t.atScope = true)
    (hm : .mention m ∈ t.ripe.flatMap (Node.sights false)) : ∃ a, m.time = some a := by
  obtain ⟨k, hk, hm⟩ := List.mem_flatMap.mp hm
  exact Option.ne_none_iff_exists'.mp
    ((h.timed.collected hat).2 _ (List.mem_flatMap.mpr ⟨k, mem_ripe hk, hm⟩))

/-- The variables come up in the order in which analysis comes to them. -/
theorem Poised.precedes (h : t.Poised) (hat : t.atScope = true) {v p q : Mention}
    {before after : List Sight} {l₁ l₂ : List Mention}
    (hx : t.ripe.flatMap (Node.sights false) = before ++ .mention m :: after)
    (hl : t.upcoming = l₁ ++ q :: l₂) (hmq : t.Matches m q)
    (hv : .mention v ∈ t.ripe.flatMap (Node.sights false)) (hp : p ∈ t.upcoming)
    (hvp : t.Matches v p) : .mention v ∈ before ↔ p ∈ l₁ := by
  obtain ⟨a, ha⟩ := h.dated_ripe hat hv
  obtain ⟨b, hb⟩ := h.dated_ripe hat (m := m) (by simp [hx])
  have hripe : (Sight.times (t.ripe.flatMap (Node.sights false))).Pairwise (· < ·) := by
    refine (h.timed.collected hat).1.sublist (List.Sublist.filterMap _ ?_)
    exact (List.takeWhile_sublist _ |>.trans List.filter_sublist).flatMap _
  have hupcoming : (Sight.times (t.upcoming.map .mention)).Pairwise (· < ·) :=
    h.timed.ordered.sublist ((List.filter_sublist.map _).filterMap _)
  have hpm := List.mem_map_of_mem (f := Sight.mention) hp
  rw [hx] at hripe hv
  rw [hl, List.map_append, List.map_cons] at hupcoming hpm
  rw [Sight.mem_before hripe hb hv ha,
    ← Sight.mem_before hupcoming (hmq.time.trans hb) hpm (hvp.time.trans ha), List.mem_map]
  constructor
  · rintro ⟨r, hr, he⟩
    cases he
    exact hr
  · exact fun hpl => ⟨p, hpl, rfl⟩

/-- Where analysis of the fragments ends, the first objection is. -/
theorem Poised.objection_of_analyze (h : t.Poised) (hat : t.atScope = true)
    (hs : t.scopes = s :: os) {us : Scopes}
    (he : (t.ripe.flatMap (Node.sights false)).mapM Sight.analyze (s :: os) = (.error f, us)) :
    t.objection? Mention.sees = some f := by
  obtain ⟨before, x, after, ys, hx, hrun, hstuck⟩ := Sight.mapM_analyze_error he
  obtain ⟨m, rfl, ho⟩ := hstuck.outer
  obtain ⟨c, hc, rfl⟩ := (h.verdict hat hs hx ho).2 f hstuck
  obtain ⟨q, hq, hmq⟩ := h.exists_upcoming hat (m := m) (by simp [hx]) ho
  obtain ⟨l₁, l₂, hl⟩ := List.append_of_mem hq
  refine List.findSome?_eq_some_iff.mpr ⟨l₁, q, l₂, hl, ?_, ?_⟩
  · rw [hmq.objection, hc, Option.map_some, Mention.failure, Mention.failure, hmq.token]
  · intro p hpl
    have hpu : p ∈ t.upcoming := by simp [hl, hpl]
    obtain ⟨v, hv, hvo, hvp⟩ := h.exists_ripe hat hpu
    have hbefore := (h.precedes hat hx hl hmq hv hpu hvp).mpr hpl
    obtain ⟨c₁, c₂, rfl⟩ := List.append_of_mem hbefore
    obtain ⟨y, hy⟩ := Sight.mapM_analyze_taken hrun
    rw [List.append_assoc, List.cons_append] at hx
    rw [hvp.objection, (h.verdict hat hs hx hvo).1 y hy, Option.map_none]

/-- Analysis gets past what is before the first objection, and ends there. -/
theorem Poised.analyze_of_objection (h : t.Poised) (hat : t.atScope = true)
    (hs : t.scopes = s :: os) (hf : t.objection? Mention.sees = some f) :
    ∃ us, (t.ripe.flatMap (Node.sights false)).mapM Sight.analyze (s :: os) = (.error f, us) := by
  obtain ⟨l₁, q, l₂, hl, hobj, hnone⟩ := List.findSome?_eq_some_iff.mp hf
  obtain ⟨c, hc, rfl⟩ := Option.map_eq_some_iff.mp hobj
  obtain ⟨m, hm, ho, hmq⟩ := h.exists_ripe hat (m := q) (by simp [hl])
  obtain ⟨before, after, hx⟩ := List.append_of_mem hm
  have hpast : ∀ v, .mention v ∈ before → v.isOuter = true →
      v.objection (Node.declaredAll t.collected :: t.beyond) = none := by
    intro v hv hvo
    have hvx : .mention v ∈ t.ripe.flatMap (Node.sights false) := by simp [hx, hv]
    obtain ⟨p, hp, hvp⟩ := h.exists_upcoming hat hvx hvo
    have hn := hnone p ((h.precedes hat hx hl hmq hvx hp hvp).mp hv)
    rwa [Option.map_eq_none_iff, hvp.objection] at hn
  rcases hrun : before.mapM Sight.analyze (s :: os) with ⟨e | ys, us⟩
  · obtain ⟨c₁, x, c₂, zs, rfl, -, hstuck⟩ := Sight.mapM_analyze_error hrun
    obtain ⟨v, rfl, hvo⟩ := hstuck.outer
    rw [List.append_assoc, List.cons_append] at hx
    obtain ⟨c', hc', -⟩ := (h.verdict hat hs hx hvo).2 e hstuck
    rw [hpast v (by simp) hvo] at hc'
    cases hc'
  · obtain ⟨rfl, -, -⟩ := Sight.mapM_analyze_ok hrun
    obtain ⟨htaken, hstuck⟩ := h.verdict hat hs hx ho
    rw [hmq.objection] at hc
    rcases Sight.analyze_cases (.mention m) (s.extend (Sight.named before)) os with
      ⟨y, -, hy⟩ | ⟨f, -, hf⟩
    · rw [htaken y hy] at hc
      cases hc
    · obtain ⟨c', hc', rfl⟩ := hstuck f hf
      cases hc.symm.trans hc'
      rw [hx, Mention.failure, hmq.token]
      exact ⟨_, Sight.mapM_analyze_stuck hrun hf⟩

/-- A flush fails over a name exactly if there is an objection, and then with the first one. -/
theorem Poised.flush_objection (h : t.Poised) (hat : t.atScope = true) :
    t.flush.failure = some f ∧ f.cause.kind = .scope ↔ t.objection? Mention.sees = some f := by
  obtain ⟨s, os, u, hs, -, -, hfail⟩ := flush_refit hat
  obtain ⟨rs, ps, hcol, hr, hp, hripe⟩ := h.ripe_parts hat hs
  have hra : ∀ r ∈ rs, r.flags.analyzed = true := fun r hm => (hr r hm).analyzed
  rw [kind_scope, hfail, hcol, Flushed.of_append hra, Flushed.failure_scope t.innerBlock os hp s,
    ← hripe]
  exact ⟨fun ⟨us, he⟩ => h.objection_of_analyze hat hs he, h.analyze_of_objection hat hs⟩

/-! The flushes of an insertion. -/

/-- The trees that are flushed when a token is placed. A closing brace may flush two of them: that
with the block it closes, and then what is around the block. -/
inductive Flushes (t : Tree) (tok : Token) : Tree → Prop where
  | ended (hk : tok.kind = .marker .terminator) (h : t.atScope = true) (he : t.expectHead = false) :
      Flushes t tok t
  | block (n : Node) (path : List Node) (hp : t.path = n :: path)
      (hc : n.closedBy .closeBlock = true) (hk : tok.kind = .marker .closeBlock)
      (he : t.expectHead = false) : Flushes t tok t
  | left (u : Tree) (h : Closing t tok u) (hs : u.leave.atScope = true) : Flushes t tok u.leave

theorem closer_of_closedBy {m : Marker} (h : n.closedBy m = true) :
    m = .closeGroup ∨ m = .closeBlock ∨ m = .closeCommand := by
  rw [Node.closedBy] at h
  cases ho : n.label.opener with
  | none => simp [ho] at h
  | some o => cases o <;> cases m <;> simp [ho, Marker.closer?] at h ⊢

theorem place_closing (h : t.Closing tok u) : (t.place tok).failure = u.closeCursor.failure := by
  obtain ⟨n, path, m, hk, hp, hc, he, hcase⟩ := h
  have hplace : t.place tok = t.close tok m := by
    rcases closer_of_closedBy hc with rfl | rfl | rfl <;> simp only [place, hk]
  rcases hcase with ⟨hm, rfl⟩ | ⟨rfl, rfl, hf⟩
  · simp [hplace, close, he, hp, hc, hm]
  · cases ht : t.path with
    | nil => simp [flush, ht] at hp
    | cons k rest =>
      obtain ⟨js, scope, hfp⟩ := flush_path ht
      obtain ⟨rfl, -⟩ := List.cons.inj (hfp.symm.trans hp)
      rw [closedBy_setScope] at hc
      have hc : k.closedBy .closeBlock = true := hc
      simp [hplace, close, he, ht, hc, Step.next, hf]

/-- The failure of a flush is that of the token. -/
theorem Flushes.failure (h : t.Flushes tok v) (hf : v.flush.failure = some f) :
    (t.place tok).failure = some f := by
  cases h with
  | ended hk ha he => simp [place, hk, terminate, he, ha, hf]
  | block n path hp hc hk he => simp [place, hk, close, he, hp, hc, Step.next, hf]
  | left u hu hs =>
    obtain ⟨n, path, -, -, hp, -⟩ := id hu
    rw [place_closing hu, closeCursor_cons hp, if_pos hs, hf]

theorem Orderly.flushes (h : t.Orderly) (hlt : ∀ x ∈ t.timeline, x < t.clock)
    (hv : t.Flushes tok v) : v.Poised ∧ v.atScope = true := by
  cases hv with
  | ended _ ha _ => exact ⟨h.toPoised, ha⟩
  | block n path hp hc _ _ => exact ⟨h.toPoised, h.staged.atScope_of_closedBy hp hc⟩
  | left u hu ha => exact ⟨h.leave hlt hu, ha⟩

theorem Placed.flushes (h : t.Placed tok u (some f)) (hf : f.cause.stage = .scope) :
    ∃ v, t.Flushes tok v ∧ v.flush.failure = some f := by
  generalize hg : some f = g at h
  cases h with
  | refused f' hne =>
    cases hg
    exact (hne hf).elim
  | awaiting _ => cases hg
  | leaf _ _ _ => cases hg
  | entered _ _ _ _ => cases hg
  | left _ _ _ => cases hg
  | flushed hk ha he => exact ⟨t, .ended hk ha he, rfl⟩
  | blocked f' n path hp hc hf' hk he => exact ⟨t, .block n path hp hc hk he, hf'⟩
  | delivered v hv ha => exact ⟨v.leave, .left v hv ha, rfl⟩

/-- The names of a tree are resolved among the declarations that `sees` picks for each variable. -/
structure Lexical (t : Tree) (sees : Mention → List (List Declared)) : Prop where
  /-- What has been analyzed is bound as it resolves there. -/
  bound : ∀ m ∈ t.mentions, m.analyzed = true → m.role ≠ .declares →
    ∃ k, m.binding = some k ∧ m.resolve (sees m) = some k
  /-- An insertion fails over a name exactly if there is an objection at a flush, and with that. -/
  raised : ∀ tok f, (t.insert tok).failure = some f ∧ f.cause.kind = .scope ↔
    ∃ v, ({ t with clock := t.clock + 1 } : Tree).Flushes tok v ∧
      (v.objection? sees).map (·.withToken tok) = some f

/-- After tokens inserted without a failure, names are resolved among the declarations that were
closed before, and in the scopes around a variable's own only among those of other fragments. -/
theorem names_resolve_lexically (toks : List Token) (h : (insertAll {} toks).failure = none) :
    (insertAll {} toks).tree.Lexical Mention.sees := by
  have ho := orderly_fresh.insertAll h
  constructor
  · intro m hm
    have hroots := ho.resolved.roots
      (fun n hn => ⟨ho.timed.dated.opened n hn, (ho.staged.path n hn).upper.raw⟩) ho.timed.order
    have hm := mem_mentions.mp hm
    have hb := hroots _ m hm (Sight.isOuter_enclose _ _ _ _ hm)
    rw [List.append_nil] at hb
    exact hb
  · intro tok f
    generalize (insertAll {} toks).tree = t at ho
    constructor
    · rintro ⟨hf, hkind⟩
      rcases insert_tree t tok with ⟨-, -, hi⟩ | ⟨g, hg, -, hi⟩
      · rw [hi] at hf
        cases hf
      · rw [hi] at hf
        cases hf
        have hplaced := placed_place { t with clock := t.clock + 1 } tok
        rw [hg] at hplaced
        obtain ⟨v, hv, hvf⟩ := hplaced.flushes ((kind_scope _).mp hkind)
        obtain ⟨hpoised, hat⟩ := ho.tick.flushes ho.strict hv
        refine ⟨v, hv, ?_⟩
        rw [(hpoised.flush_objection hat).mp ⟨hvf, hkind⟩]
        rfl
    · rintro ⟨v, hv, hf⟩
      obtain ⟨g, hg, rfl⟩ := Option.map_eq_some_iff.mp hf
      obtain ⟨hpoised, hat⟩ := ho.tick.flushes ho.strict hv
      obtain ⟨hvf, hkind⟩ := (hpoised.flush_objection hat).mpr hg
      have hplace := hv.failure hvf
      rcases insert_tree t tok with ⟨hp, -, -⟩ | ⟨g', hp, -, hi⟩
      · rw [hp] at hplace
        cases hplace
      · cases hp.symm.trans hplace
        exact ⟨hi, hkind⟩

/-- Two declarations, the second of which refers to the first, a renewal in a block with a
declaration of its own, and a reference to nothing. -/
def renewalInBlock : List Token :=
  [⟨"(", []⟩, ⟨"new", []⟩, ⟨"(", []⟩, ⟨"init", []⟩, ⟨"ID", "x"⟩, ⟨"INT", "1"⟩, ⟨")", []⟩,
    ⟨"(", []⟩, ⟨"init", []⟩, ⟨"ID", "y"⟩, ⟨"ID", "x"⟩, ⟨")", []⟩, ⟨")", []⟩,
    ⟨"\x7b", []⟩, ⟨"(", []⟩, ⟨"new", []⟩, ⟨"(", []⟩, ⟨"init", []⟩, ⟨"ID", "x"⟩, ⟨"INT", "2"⟩,
    ⟨")", []⟩, ⟨")", []⟩, ⟨"(", []⟩, ⟨"renew", []⟩, ⟨"(", []⟩, ⟨"init", []⟩, ⟨"ID", "x"⟩,
    ⟨"ID", "y"⟩, ⟨")", []⟩, ⟨")", []⟩, ⟨"\x7d", []⟩, ⟨"ID", "z"⟩]

theorem names_resolve_lexically_renewalInBlock :
    (insertAll {} renewalInBlock).failure = none ∧
      (∃ m ∈ (insertAll {} renewalInBlock).tree.mentions, m.role = .renews ∧ m.binding = some 1 ∧
        m.resolve m.sees = some 1) ∧
      ∃ f, ((insertAll {} renewalInBlock).tree.insert ⟨";", []⟩).failure = some f ∧
        f.cause = .undeclared "z" := by
  have hf : (insertAll {} renewalInBlock).failure = none := by decide +kernel
  have hm : ∃ m ∈ (insertAll {} renewalInBlock).tree.mentions, m.role = .renews ∧
      m.analyzed = true ∧ m.binding = some 1 := by
    decide +kernel
  obtain ⟨m, hmem, hr, ha, hb⟩ := hm
  obtain ⟨hbound, hraised⟩ := names_resolve_lexically _ hf
  obtain ⟨k, hk, hres⟩ := hbound m hmem ha (by simp [hr])
  cases hb.symm.trans hk
  refine ⟨hf, ⟨m, hmem, hr, hb, hres⟩, ?_⟩
  have hobj : (({ (insertAll {} renewalInBlock).tree with
      clock := (insertAll {} renewalInBlock).tree.clock + 1 } : Tree).objection? Mention.sees).map
        (·.cause) = some (.undeclared "z") := by
    decide +kernel
  obtain ⟨g, hg, hc⟩ := Option.map_eq_some_iff.mp hobj
  obtain ⟨hins, -⟩ := (hraised ⟨";", []⟩ (g.withToken ⟨";", []⟩)).mpr
    ⟨_, .ended (by decide) (by decide +kernel) (by decide +kernel), by rw [hg]; rfl⟩
  exact ⟨_, hins, hc⟩

/-- A declaration whose second initializer has a reference to the first in a block. -/
def blockInInitializer : List Token :=
  [⟨"(", []⟩, ⟨"new", []⟩, ⟨"(", []⟩, ⟨"init", []⟩, ⟨"ID", "x"⟩, ⟨"INT", "1"⟩, ⟨")", []⟩,
    ⟨"(", []⟩, ⟨"init", []⟩, ⟨"ID", "y"⟩, ⟨"\x7b", []⟩, ⟨"ID", "x"⟩]

/-- Not all declarations closed before a variable count: what is in a block is analyzed before the
fragment that the block is in, and fails for want of a declaration that this fragment makes. -/
theorem block_misses_own_fragment : (insertAll {} blockInInitializer).failure = none ∧
    ¬ (insertAll {} blockInInitializer).tree.Lexical Mention.surroundings := by
  refine ⟨by decide +kernel, fun h => ?_⟩
  have hf : ((insertAll {} blockInInitializer).tree.insert ⟨";", []⟩).failure.map (·.cause) =
      some (.undeclared "x") := by
    decide +kernel
  have hnone : (({ (insertAll {} blockInInitializer).tree with
      clock := (insertAll {} blockInInitializer).tree.clock + 1 } : Tree).objection?
        Mention.surroundings).isNone = true := by
    decide +kernel
  obtain ⟨f, hf, hc⟩ := Option.map_eq_some_iff.mp hf
  obtain ⟨v, hv, hobj⟩ := (h.raised _ f).mp ⟨hf, by rw [hc]; rfl⟩
  have hkind : (⟨";", []⟩ : Token).kind = .marker .terminator := by decide
  cases hv with
  | ended _ _ _ =>
    rw [Option.isNone_iff_eq_none.mp hnone] at hobj
    cases hobj
  | block _ _ _ _ hk _ =>
    rw [hkind] at hk
    cases hk
  | left u hu _ =>
    obtain ⟨n, -, m, hk, -, hclosed, -⟩ := hu
    rw [hkind] at hk
    cases hk
    rcases closer_of_closedBy hclosed with hm | hm | hm <;> cases hm

end Tree

end TokenShell
