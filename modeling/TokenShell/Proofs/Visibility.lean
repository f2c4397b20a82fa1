import TokenShell.Proofs.Timing

/-! What a variable sees: the declarations in the scopes around it that took effect before it, and
what keeps the variables of a tree bound to the innermost of them. -/
namespace TokenShell

namespace Mention

variable {m : Mention} {d : Declared} {ds es : List Declared} {dss : List (List Declared)}
  {f : Frame}

/-- Whether the variable takes effect after a declaration. -/
def follows (m : Mention) (d : Declared) : Bool :=
  match d.time, m.time with
  | some a, some b => a < b
  | _, _ => false

/-- Whether the variable follows a declaration of its name. -/
def knows (m : Mention) (ds : List Declared) : Bool :=
  ds.any fun d => d.key.1 == m.name && m.follows d

/-- The level of the innermost scope with a declaration that the variable knows. -/
def resolve (m : Mention) : List (List Declared) → Option Nat
  | [] => none
  | ds :: outer => if m.knows ds then some outer.length else m.resolve outer

/-- The declarations that count for a variable: those of its own scope, and those of the scopes
around that one which are in another fragment of their scope than the variable. -/
def sees (m : Mention) : List (List Declared) :=
  match m.frames with
  | [] => []
  | f :: outer => (f.others ++ f.own) :: outer.map Frame.others

/-- All declarations of the scopes around a variable. -/
def surroundings (m : Mention) : List (List Declared) := m.frames.map fun f => f.others ++ f.own

/-- If the variable has been analyzed and does not declare its name, it is bound as it resolves
among the given declarations. -/
def BoundBy (m : Mention) (dss : List (List Declared)) : Prop :=
  m.analyzed = true → m.role ≠ .declares → ∃ k, m.binding = some k ∧ m.resolve dss = some k

theorem knows_append (ds es : List Declared) : m.knows (ds ++ es) = (m.knows ds || m.knows es) :=
  List.any_append

theorem knows_later (h : ∀ d ∈ ds, m.follows d = false) : m.knows ds = false := by
  rw [knows, List.any_eq_false]
  intro d hd
  simp [h d hd]

theorem knows_earlier (h : ∀ d ∈ ds, m.follows d = true) :
    m.knows ds = true ↔ ∃ d ∈ ds, d.key.1 = m.name := by
  rw [knows, List.any_eq_true]
  refine exists_congr fun d => and_congr_right fun hd => ?_
  simp [h d hd]

theorem resolve_congr (pre : List (List Declared)) (h : m.knows es = m.knows ds) :
    m.resolve (pre ++ es :: dss) = m.resolve (pre ++ ds :: dss) := by
  induction pre with
  | nil =>
    rw [List.nil_append, List.nil_append, resolve, resolve, h]
  | cons d pre ih =>
    rw [List.cons_append, List.cons_append, resolve, resolve, ih]
    simp

theorem BoundBy.congr (pre : List (List Declared)) (hb : m.BoundBy (pre ++ ds :: dss))
    (h : m.knows es = m.knows ds) : m.BoundBy (pre ++ es :: dss) := by
  intro ha hr
  obtain ⟨k, hk, hd⟩ := hb ha hr
  exact ⟨k, hk, (resolve_congr pre h).trans hd⟩

/-- Only its name and its time matter to what a variable resolves to. -/
theorem resolve_eq (v m : Mention) (hn : v.name = m.name) (ht : v.time = m.time)
    (dss : List (List Declared)) : v.resolve dss = m.resolve dss := by
  have hknows : ∀ ds, v.knows ds = m.knows ds := by
    intro ds
    simp only [knows, follows, hn, ht]
  induction dss with
  | nil => rfl
  | cons ds dss ih => rw [resolve, resolve, ih, hknows]

theorem boundBy_within : (m.within f).BoundBy dss ↔ m.BoundBy dss := by
  have hr : (m.within f).resolve dss = m.resolve dss := resolve_eq (m.within f) m rfl rfl dss
  simp only [BoundBy, hr]
  rfl

theorem sees_within_outer (h : m.isOuter = true) : (m.within f).sees = [f.others ++ f.own] := by
  have hf : m.frames = [] := by simpa [isOuter] using h
  simp [sees, within, hf]

theorem sees_within_inner (h : m.isOuter = false) : (m.within f).sees = m.sees ++ [f.others] := by
  cases hf : m.frames with
  | nil => simp [isOuter, hf] at h
  | cons g gs => simp [sees, within, hf]

end Mention

theorem Scopes.innermost_eq_resolve {m : Mention} {ss : Scopes} {dss : List (List Declared)}
    (h : List.Forall₂ (fun s ds => s.declares m.name = m.knows ds) ss dss) :
    innermost m.name ss = m.resolve dss := by
  induction h with
  | nil => rfl
  | cons hs ho ih => rw [innermost, Mention.resolve, hs, ih, ho.length_eq]

namespace Sight

variable {m : Mention} {d : Declared} {xs ys f : List Sight} {fs gs : List (List Sight)}
  {keys keys' : List Key} {ctx : List (List Declared)} {ds es : List Declared}

def mention? : Sight → Option Mention
  | mention m => some m
  | scope .. => none

/-- The declarations that sights make in the scope around them. -/
def declared (xs : List Sight) : List Declared := xs.filterMap declared?

/-- The variables inside blocks are bound right; `ctx` are the declarations around. -/
def Bound (ctx : List (List Declared)) (xs : List Sight) : Prop :=
  ∀ m, .mention m ∈ xs → m.isOuter = false → m.BoundBy (m.sees ++ ctx)

theorem declared_append (xs ys : List Sight) : declared (xs ++ ys) = declared xs ++ declared ys :=
  List.filterMap_append

theorem mem_declared (h : d ∈ declared xs) : ∃ m, .mention m ∈ xs ∧ m.time = d.time := by
  obtain ⟨x, hx, hd⟩ := List.mem_filterMap.mp h
  cases x with
  | mention m =>
    rw [declared?] at hd
    split at hd
    · cases hd
      exact ⟨m, hx, rfl⟩
    · cases hd
  | scope _ _ => cases hd

theorem mem_times {a : Nat} (h : .mention m ∈ xs) (hm : m.time = some a) : a ∈ times xs :=
  List.mem_filterMap.mpr ⟨_, h, hm⟩

theorem not_follows (h : (times xs ++ times ys).Pairwise (· < ·)) (hm : .mention m ∈ xs)
    (hd : d ∈ declared ys) : m.follows d = false := by
  obtain ⟨v, hv, ht⟩ := mem_declared hd
  rw [Mention.follows.eq_def]
  split
  · next a b ha hb =>
    have hlt := (List.pairwise_append.mp h).2.2 b (mem_times hm hb) a (mem_times hv (ht.trans ha))
    simp only [decide_eq_false_iff_not]
    omega
  · rfl

theorem follows (h : (times xs ++ times ys).Pairwise (· < ·)) (hx : ∀ x ∈ xs, x.Dated)
    (hy : ∀ y ∈ ys, y.Dated) (hm : .mention m ∈ ys) (hd : d ∈ declared xs) :
    m.follows d = true := by
  obtain ⟨v, hv, ht⟩ := mem_declared hd
  obtain ⟨a, ha⟩ := Option.ne_none_iff_exists'.mp (hx _ hv)
  obtain ⟨b, hb⟩ := Option.ne_none_iff_exists'.mp (hy _ hm)
  have hlt := (List.pairwise_append.mp h).2.2 a (mem_times hv ha) b (mem_times hm hb)
  rw [Mention.follows, ← ht, ha, hb]
  simpa using hlt

theorem Bound.congr (h : Bound (ds :: ctx) xs)
    (he : ∀ m, .mention m ∈ xs → m.knows es = m.knows ds) : Bound (es :: ctx) xs :=
  fun m hm ho => (h m hm ho).congr _ (he m hm)

/-- The declarations of one fragment and of the others are those of all. -/
theorem knows_parts (gs : List (List Sight)) (f : List Sight) (hs : List (List Sight)) :
    m.knows (declared (gs ++ hs).flatten ++ declared f) =
      m.knows (declared (gs ++ f :: hs).flatten) := by
  simp only [List.flatten_append, List.flatten_cons, declared_append, Mention.knows_append]
  rw [Bool.or_assoc, Bool.or_comm (m.knows (declared hs.flatten))]

/-- What it takes for the variables below a scope to be bound right. -/
theorem bound_enclose : Bound ctx (enclose keys [] fs) ↔
    (∀ m, .mention m ∈ fs.flatten → m.isOuter = true → m.BoundBy (declared fs.flatten :: ctx)) ∧
      ∀ gs f hs, fs = gs ++ f :: hs → Bound (declared (gs ++ hs).flatten :: ctx) f := by
  have hothers : ∀ gs hs : List (List Sight),
      ([] ++ gs.flatten ++ hs.flatten).filterMap declared? = declared (gs ++ hs).flatten := by
    intro gs hs
    rw [List.nil_append, ← List.flatten_append]
    rfl
  constructor
  · intro h
    have hin : ∀ gs f hs, fs = gs ++ f :: hs → ∀ m, .mention m ∈ f →
        m.BoundBy ((m.within ⟨keys, declared (gs ++ hs).flatten, declared f⟩).sees ++ ctx) := by
      intro gs f hs he m hm
      refine Mention.boundBy_within.mp (h _ (mem_enclose.mpr ⟨gs, f, hs, he, _, hm, ?_⟩) ?_)
      · rw [hothers]
        rfl
      · exact isOuter_within _ (.mention m)
    refine ⟨?_, ?_⟩
    · intro m hm ho
      obtain ⟨f, hf, hmf⟩ := List.mem_flatten.mp hm
      obtain ⟨gs, hs, rfl⟩ := List.append_of_mem hf
      have hb := hin gs f hs rfl m hmf
      rw [Mention.sees_within_outer ho] at hb
      exact Mention.BoundBy.congr [] hb (knows_parts gs f hs).symm
    · intro gs f hs he m hm ho
      have hb := hin gs f hs he m hm
      rwa [Mention.sees_within_inner ho, List.append_assoc] at hb
  · rintro ⟨houter, hinner⟩ m hm -
    obtain ⟨gs, f, hs, he, x, hx, hw⟩ := mem_enclose.mp hm
    rw [hothers] at hw
    cases x with
    | scope _ _ => cases hw
    | mention v =>
      cases hw
      rw [Mention.boundBy_within]
      cases ho : v.isOuter with
      | true =>
        have hb := houter v (List.mem_flatten.mpr ⟨f, by simp [he], hx⟩) ho
        rw [Mention.sees_within_outer ho]
        rw [he] at hb
        exact Mention.BoundBy.congr [] hb (knows_parts gs f hs)
      | false =>
        rw [Mention.sees_within_inner ho, List.append_assoc]
        exact hinner gs f hs he v hx ho

theorem blank_flatten (hb : List.Forall₂ (fun f g => g.map blank = f.map blank) fs gs) :
    gs.flatten.map blank = fs.flatten.map blank := by
  induction hb with
  | nil => rfl
  | cons h _ ih =>
    rw [List.flatten_cons, List.flatten_cons, List.map_append, List.map_append, h, ih]

theorem blank_inner {x : Sight} (h : x.isOuter = false) : x.blank = x := by
  cases x with
  | mention m => rw [blank, if_neg (by simpa [isOuter] using h)]
  | scope _ _ => rfl

theorem isOuter_blank (x : Sight) : x.blank.isOuter = x.isOuter := by
  cases x with
  | mention m => rw [blank]; split <;> rfl
  | scope _ _ => rfl

/-- Analysis of the fragments of a scope leaves alone what is inside their blocks. -/
theorem inner_of_blank {x : Sight} (hb : ys.map blank = xs.map blank) (hx : x ∈ ys)
    (ho : x.isOuter = false) : x ∈ xs := by
  have hm : x ∈ xs.map blank := by
    rw [← hb, ← blank_inner ho]
    exact List.mem_map_of_mem hx
  obtain ⟨y, hy, rfl⟩ := List.mem_map.mp hm
  rw [isOuter_blank] at ho
  rw [blank_inner ho]
  exact hy

/-- If analysis binds the variables of the fragments right, those below the scope are. -/
theorem Bound.replace (h : Bound ctx (enclose keys [] fs))
    (hb : List.Forall₂ (fun f g => g.map blank = f.map blank) fs gs)
    (hnew : ∀ m, .mention m ∈ gs.flatten → m.isOuter = true →
      .mention m ∈ fs.flatten ∨ m.BoundBy (declared gs.flatten :: ctx)) :
    Bound ctx (enclose keys' [] gs) := by
  obtain ⟨houter, hinner⟩ := bound_enclose.mp h
  refine bound_enclose.mpr ⟨?_, ?_⟩
  · intro m hm ho
    rcases hnew m hm ho with hold | hnew
    · have hd : declared gs.flatten = declared fs.flatten := declared_of_blank (blank_flatten hb)
      rw [hd]
      exact houter m hold ho
    · exact hnew
  · rintro as g bs rfl m hm ho
    have hfs := List.take_append_drop as.length fs
    have hleft := List.forall₂_take_append _ _ _ hb
    have hright := List.forall₂_drop_append _ _ _ hb
    obtain ⟨f, rest, hf, hrest, hdrop⟩ := List.forall₂_cons_right_iff.mp hright
    have hd : declared (as ++ bs).flatten = declared (fs.take as.length ++ rest).flatten :=
      declared_of_blank (blank_flatten (List.rel_append hleft hrest))
    rw [hd]
    exact hinner _ f rest (by rw [← hdrop, hfs]) m (inner_of_blank hf hm ho) ho

/-- One more fragment, not analyzed yet, does not matter to the variables before it. -/
theorem Bound.concat (h : Bound ctx (enclose keys [] fs))
    (hf : Bound (declared fs.flatten :: ctx) f)
    (hraw : ∀ m, .mention m ∈ f → m.isOuter = true → m.analyzed = false)
    (hlater : ∀ m, .mention m ∈ fs.flatten → ∀ d ∈ declared f, m.follows d = false) :
    Bound ctx (enclose keys' [] (fs ++ [f])) := by
  obtain ⟨houter, hinner⟩ := bound_enclose.mp h
  have hknows : ∀ m, .mention m ∈ fs.flatten → ∀ ds, m.knows (ds ++ declared f) = m.knows ds := by
    intro m hm ds
    rw [Mention.knows_append, Mention.knows_later (hlater m hm), Bool.or_false]
  refine bound_enclose.mpr ⟨?_, ?_⟩
  · intro m hm ho
    rw [List.flatten_append, List.flatten_singleton] at hm ⊢
    rcases List.mem_append.mp hm with hm | hm
    · rw [declared_append]
      exact (houter m hm ho).congr [] (hknows m hm _)
    · intro ha
      rw [hraw m hm ho] at ha
      cases ha
  · intro gs g hs he
    rcases List.eq_nil_or_concat hs with rfl | ⟨hs, z, rfl⟩
    · obtain ⟨rfl, hg⟩ := List.append_inj' he rfl
      obtain ⟨rfl, -⟩ := List.cons.inj hg
      rw [List.append_nil]
      exact hf
    · have he' : fs ++ [f] = (gs ++ g :: hs) ++ [z] := by rw [he]; simp
      obtain ⟨rfl, hz⟩ := List.append_inj' he' rfl
      obtain ⟨rfl, -⟩ := List.cons.inj hz
      refine (hinner gs g hs rfl).congr fun m hm => ?_
      have hflat : (gs ++ hs.concat f).flatten = (gs ++ hs).flatten ++ f := by simp
      rw [hflat, declared_append]
      exact hknows m (List.mem_flatten.mpr ⟨g, by simp, hm⟩) _

end Sight

namespace Node

variable {n p k : Node} {l : Label} {ks : List Node} {ctx : List (List Declared)}

/-- What the children of a node declare in the scope around them. -/
def declaredAll (ks : List Node) : List Declared := Sight.declared (ks.flatMap (sights false))

/-- The declarations around the children of a node. -/
def widen (n : Node) (ctx : List (List Declared)) : List (List Declared) :=
  if n.isBlock then declaredAll n.kids :: ctx else ctx

theorem widen_block (hb : l.isBlock = true) : (mk l ks).widen ctx = declaredAll ks :: ctx :=
  if_pos hb

theorem widen_other (hb : l.isBlock = false) : (mk l ks).widen ctx = ctx :=
  if_neg (by rw [← isBlock_label, label_mk, hb]; simp)

theorem bound_block (hb : l.isBlock = true) (keys : List Key) :
    Sight.Bound ctx ((mk l ks).sights false) ↔
      Sight.Bound ctx (Sight.enclose keys [] (ks.map (sights false))) := by
  obtain ⟨kind, s, hf⟩ := Label.isBlock_iff.mp hb
  have hscope : ∀ xs as es, Sight.Bound ctx (xs ++ [.scope as es]) ↔ Sight.Bound ctx xs := by
    intro xs as es
    simp [Sight.Bound]
  rw [sights_block hf, hscope, Sight.bound_enclose, Sight.bound_enclose]

/-- A closed child that is not analyzed yet. -/
theorem bound_push (hp : Sight.Bound ctx (p.sights false))
    (hk : Sight.Bound (p.widen ctx) (k.sights false)) (hraw : k.Raw)
    (ht : (p.times ++ k.times).Pairwise (· < ·)) : Sight.Bound ctx ((p.push k).sights false) := by
  obtain ⟨l, ks⟩ := p
  by_cases hb : l.isBlock = true
  · rw [widen_block hb, declaredAll, List.flatMap_def] at hk
    rw [times_block hb, ← times_flatMap, List.flatMap_def] at ht
    have hpush : (mk l ks).push k = mk l (ks ++ [k]) := rfl
    rw [hpush, bound_block hb [], List.map_append]
    refine ((bound_block hb []).mp hp).concat hk ?_ ?_
    · exact hraw.analyzed_sights
    · exact fun m hm d hd => Sight.not_follows ht hm hd
  · have hb : l.isBlock = false := by simpa using hb
    rw [widen_other hb] at hk
    intro m hm ho
    have hinner : ∀ js,
        .mention m ∈ (mk l js).sights false ↔ ∃ j ∈ js, .mention m ∈ j.sights false :=
      fun _ => inner_mk hb ho
    obtain ⟨j, hj, hm⟩ := (hinner (ks ++ [k])).mp hm
    rcases List.mem_append.mp hj with hj | hj
    · exact hp m ((hinner ks).mpr ⟨j, hj, hm⟩) ho
    · cases List.mem_singleton.mp hj
      exact hk m hm ho

/-- Of the label of a node only matters whether it is a block. -/
theorem bound_relabel {l' : Label} (hl : l'.isBlock = l.isBlock)
    (h : Sight.Bound ctx ((mk l ks).sights false)) : Sight.Bound ctx ((mk l' ks).sights false) := by
  by_cases hb : l.isBlock = true
  · rw [bound_block (hl.trans hb) []]
    exact (bound_block hb []).mp h
  · have hb : l.isBlock = false := by simpa using hb
    intro m hm ho
    have hinner : ∀ l₀ : Label, l₀.isBlock = false → (.mention m ∈ (mk l₀ ks).sights false ↔
        ∃ j ∈ ks, .mention m ∈ j.sights false) := fun _ hl => inner_mk hl ho
    exact h m ((hinner l hb).mpr ((hinner l' (hl.trans hb)).mp hm)) ho

theorem bound_childless : Sight.Bound ctx ((mk l []).sights false) := by
  by_cases hb : l.isBlock = true
  · rw [bound_block hb []]
    intro m hm
    cases hm
  · intro m hm ho
    have hinner : .mention m ∈ (mk l []).sights false ↔
        ∃ j ∈ ([] : List Node), .mention m ∈ j.sights false := inner_mk (by simpa using hb) ho
    obtain ⟨j, hj, -⟩ := hinner.mp hm
    cases hj

end Node

end TokenShell
