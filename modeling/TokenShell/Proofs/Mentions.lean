import TokenShell.Proofs.Staging

/-! The variables of a tree in the order in which they take effect: what each does, and the scopes
around it. -/
namespace TokenShell

/-- What a variable does where it stands. That of an initializer starts it off, and what comes of it
is known from the declaration above. -/
inductive Role where
  | refers
  | starts
  | declares
  | renews
  deriving DecidableEq

/-- A declaration, with the number of the token that closed its initializer. -/
structure Declared where
  key : Key
  time : Option Nat
  deriving DecidableEq

/-- A scope around a variable: what it declares, and the declarations made below it, those apart
that are in the same fragment as the variable. -/
structure Frame where
  keys : List Key
  others : List Declared
  own : List Declared

/-- A variable where it stands. A reference takes effect with its own token, and the variable of an
initializer when that is closed. -/
structure Mention where
  token : Token
  serial : Nat
  role : Role := .refers
  time : Option Nat
  binding : Option Nat
  analyzed : Bool
  /-- The scope in which its search begins. -/
  block : Option Nat
  /-- The scopes around it as far as the tree goes, innermost first. -/
  frames : List Frame := []

/-- What a tree shows to the scopes around it: its variables, and its blocks with what they declare
and what has been entered below them. -/
inductive Sight where
  | mention (m : Mention)
  | scope (keys entered : List Key)

def Role.under (renewing : Bool) : Role → Role
  | .starts => if renewing then .renews else .declares
  | r => r

namespace Mention

def name (m : Mention) : Bytes := m.token.value

def key (m : Mention) : Key := (m.token.value, m.serial)

/-- The variable below a declaration. -/
def under (renewing : Bool) (m : Mention) : Mention := { m with role := m.role.under renewing }

/-- The variable in one more scope. -/
def within (f : Frame) (m : Mention) : Mention := { m with frames := m.frames ++ [f] }

/-- The variable of an initializer. -/
def start (l : Label) (m : Mention) : Mention :=
  { m with role := .starts, time := l.closedAt, analyzed := l.flags.analyzed, block := l.block }

/-- Whether no block of the tree is around the variable. -/
def isOuter (m : Mention) : Bool := m.frames.isEmpty

end Mention

namespace Sight

def under (renewing : Bool) : Sight → Sight
  | mention m => mention (m.under renewing)
  | s => s

def within (f : Frame) : Sight → Sight
  | mention m => mention (m.within f)
  | s => s

def isOuter : Sight → Bool
  | mention m => m.isOuter
  | scope .. => false

/-- The declaration that a variable outside all blocks makes. -/
def declared? : Sight → Option Declared
  | mention m => if m.isOuter ∧ m.role = .declares then some ⟨m.key, m.time⟩ else none
  | scope .. => none

/-- The key that a variable outside all blocks has been entered with. -/
def entered? : Sight → Option Key
  | mention m => if m.isOuter ∧ m.role = .declares ∧ m.analyzed then some m.key else none
  | scope .. => none

/-- What the fragments of a scope show once that scope is around them; `before` is what stands
before them in it. -/
def enclose (keys : List Key) (before : List Sight) : List (List Sight) → List Sight
  | [] => []
  | f :: fs =>
    f.map (within ⟨keys, (before ++ fs.flatten).filterMap declared?, f.filterMap declared?⟩) ++
      enclose keys (before ++ f) fs

end Sight

def Label.mention (l : Label) (binding : Option Nat) : Mention :=
  { token := l.token, serial := l.serial, time := some l.serial, binding,
    analyzed := l.flags.analyzed, block := l.block }

/-- The variable of an initializer as it stands below a declaration. -/
def Label.introduces (l : Label) (renewing : Bool) (v : Label) (binding : Option Nat) : Mention :=
  ((v.mention binding).start l).under renewing

theorem Label.isBlock_iff {l : Label} :
    l.isBlock = true ↔ ∃ kind scope, l.form = .block kind scope := by
  rw [Label.isBlock]
  cases l.form <;> simp

namespace Node

/-- What an initializer shows: the variable that comes first takes effect last. -/
def startStep (l : Label) : List (List Sight) → List Sight
  | (.mention m :: more) :: rest =>
    if m.isOuter then (more ++ rest.flatten).map (Sight.under false) ++ [.mention (m.start l)]
    else (.mention m :: more ++ rest.flatten).map (Sight.under false)
  | parts => parts.flatten.map (Sight.under false)

def sightStep (l : Label) (parts : List (List Sight)) : List Sight :=
  match l.form with
  | .block _ scope =>
    let fragments := parts.map (·.map (Sight.under false))
    Sight.enclose scope.keys [] fragments ++
      [.scope scope.keys (fragments.flatten.filterMap Sight.entered?)]
  | .declaration renews => parts.flatten.map (Sight.under renews)
  | .initializer => startStep l parts
  | .variable _ b => .mention (l.mention b) :: parts.flatten.map (Sight.under false)
  | .operator .. => parts.flatten
  | _ => parts.flatten.map (Sight.under false)

/-- What a tree shows below a declaration that renews, or else. -/
def sights (renewing : Bool) (n : Node) : List Sight :=
  (n.fold sightStep).map (Sight.under renewing)

end Node

/-! Roles are decided once. -/

theorem Role.under_under (b c : Bool) (r : Role) : (r.under b).under c = r.under b := by
  cases r <;> cases b <;> rfl

namespace Sight

theorem under_under (b c : Bool) (s : Sight) : (s.under b).under c = s.under b := by
  cases s with
  | mention m => simp [under, Mention.under, Role.under_under]
  | scope _ _ => rfl

theorem map_under_under (b c : Bool) (ss : List Sight) :
    (ss.map (under b)).map (under c) = ss.map (under b) := by
  rw [List.map_map]
  exact List.map_congr_left fun s _ => under_under b c s

theorem under_within (b : Bool) (f : Frame) (s : Sight) :
    (s.within f).under b = (s.under b).within f := by
  cases s <;> rfl

theorem declared?_inner {s : Sight} (h : s.isOuter = false) : s.declared? = none := by
  cases s with
  | mention m =>
    have ho : m.isOuter = false := h
    simp [declared?, ho]
  | scope _ _ => rfl

theorem isOuter_within (f : Frame) (s : Sight) : (s.within f).isOuter = false := by
  cases s with
  | mention m => simp [within, isOuter, Mention.within, Mention.isOuter]
  | scope _ _ => rfl

/-- The frame around a fragment holds the declarations of the fragments on both sides of it. -/
theorem mem_enclose {keys : List Key} {before : List Sight} {fs : List (List Sight)} {s : Sight} :
    s ∈ enclose keys before fs ↔ ∃ gs f hs, fs = gs ++ f :: hs ∧ ∃ x ∈ f, s = x.within
      ⟨keys, (before ++ gs.flatten ++ hs.flatten).filterMap declared?, f.filterMap declared?⟩ := by
  induction fs generalizing before with
  | nil => simp [enclose]
  | cons f fs ih =>
    rw [enclose, List.mem_append, ih]
    constructor
    · rintro (hs | ⟨gs, g, hs, rfl, x, hx, rfl⟩)
      · obtain ⟨x, hx, rfl⟩ := List.mem_map.mp hs
        exact ⟨[], f, fs, rfl, x, hx, by simp⟩
      · exact ⟨f :: gs, g, hs, rfl, x, hx, by simp⟩
    · rintro ⟨gs, g, hs, he, x, hx, rfl⟩
      cases gs with
      | nil =>
        obtain ⟨rfl, rfl⟩ := List.cons.inj he
        exact Or.inl (List.mem_map.mpr ⟨x, hx, by simp⟩)
      | cons g' gs =>
        obtain ⟨rfl, rfl⟩ := List.cons.inj he
        exact Or.inr ⟨gs, g, hs, rfl, x, hx, by simp⟩

theorem isOuter_enclose (keys : List Key) (before : List Sight) (fs : List (List Sight)) :
    ∀ s ∈ enclose keys before fs, s.isOuter = false := by
  intro s hs
  obtain ⟨gs, f, hs, -, x, -, rfl⟩ := mem_enclose.mp hs
  exact isOuter_within _ x

theorem map_under_enclose (b : Bool) (keys : List Key) (before : List Sight)
    {fs : List (List Sight)} (h : ∀ f ∈ fs, f.map (under b) = f) :
    (enclose keys before fs).map (under b) = enclose keys before fs := by
  induction fs generalizing before with
  | nil => rfl
  | cons f fs ih =>
    have hf := h f (by simp)
    rw [enclose, List.map_append, ih _ fun g hg => h g (by simp [hg])]
    congr 1
    nth_rewrite 4 [← hf]
    rw [List.map_map, List.map_map]
    exact List.map_congr_left fun s _ => under_within b _ s

end Sight

namespace Node

variable {n m : Node} {l : Label} {ks : List Node} {b : Bool}

theorem sights_mk (b : Bool) (l : Label) (ks : List Node) : (mk l ks).sights b =
    (sightStep l (ks.map (fold sightStep))).map (Sight.under b) := by
  rw [sights, fold_mk]

theorem sights_under (b c : Bool) (n : Node) : (n.sights b).map (Sight.under c) = n.sights b :=
  Sight.map_under_under b c _

theorem flatten_sights (b : Bool) (ks : List Node) :
    (ks.map (fold sightStep)).flatten.map (Sight.under b) = ks.flatMap (sights b) := by
  rw [List.map_flatten, List.map_map, ← List.flatMap_def]
  rfl

theorem sights_block {kind : BlockKind} {scope : Scope} (hf : l.form = .block kind scope) :
    (mk l ks).sights b = Sight.enclose scope.keys [] (ks.map (sights false)) ++
      [.scope scope.keys ((ks.flatMap (sights false)).filterMap Sight.entered?)] := by
  have hparts : (ks.map (fold sightStep)).map (·.map (Sight.under false)) =
      ks.map (sights false) := by
    rw [List.map_map]
    rfl
  rw [sights_mk, sightStep, hf]
  dsimp only
  rw [hparts, List.map_append, Sight.map_under_enclose, List.flatMap_def]
  · rfl
  · intro f hf
    obtain ⟨k, -, rfl⟩ := List.mem_map.mp hf
    exact sights_under false b k

theorem sights_declaration {renews : Bool} (hf : l.form = .declaration renews) :
    (mk l ks).sights b = ks.flatMap (sights renews) := by
  rw [sights_mk, sightStep, hf]
  dsimp only
  rw [Sight.map_under_under, flatten_sights]

theorem sights_variable {d : Bool} {k : Option Nat} (hf : l.form = .variable d k) :
    (mk l []).sights b = [.mention (l.mention k)] := by
  rw [sights_mk, sightStep, hf]
  rfl

theorem sights_initializer {v : Label} {d : Bool} {k : Option Nat} (hf : l.form = .initializer)
    (hv : v.form = .variable d k) : (mk l (mk v [] :: ks)).sights b =
      ks.flatMap (sights false) ++ [.mention (l.introduces b v k)] := by
  have hfirst : (mk v []).fold sightStep = [.mention (v.mention k)] := by
    rw [fold_mk, sightStep, hv]
    rfl
  rw [sights_mk, sightStep, hf, List.map_cons, hfirst]
  dsimp only
  rw [startStep, if_pos (by rfl), List.nil_append, flatten_sights, List.map_append]
  congr 1
  rw [List.map_flatMap]
  exact List.flatMap_congr fun k _ => sights_under false b k

/-- Below any other node the roles of initializers are decided as outside declarations. -/
theorem sights_other (hb : l.isBlock = false) (hd : ∀ renews, l.form ≠ .declaration renews)
    (hi : l.form ≠ .initializer) (hv : ∀ d k, l.form ≠ .variable d k) :
    (mk l ks).sights false = ks.flatMap (sights false) := by
  rw [sights_mk, sightStep.eq_def]
  split
  · next hf => simp [Label.isBlock, hf] at hb
  · next hf => exact (hd _ hf).elim
  · next hf => exact (hi hf).elim
  · next hf => exact (hv _ _ hf).elim
  · exact flatten_sights false ks
  · rw [Sight.map_under_under, flatten_sights]

/-- What a node that is no block shows: the sights of its parts in their roles, after itself if it
is a variable, the first part last if it is an initializer. -/
theorem sightStep_cases (hb : l.isBlock = false) (parts : List (List Sight)) :
    (∃ g, (g = id ∨ ∃ b, g = Sight.under b) ∧ sightStep l parts = parts.flatten.map g) ∨
    (∃ d k, l.form = .variable d k ∧
      sightStep l parts = .mention (l.mention k) :: parts.flatten.map (Sight.under false)) ∨
    (l.form = .initializer ∧ ∃ v more, parts.flatten = .mention v :: more ∧ v.isOuter = true ∧
      sightStep l parts = more.map (Sight.under false) ++ [.mention (v.start l)]) := by
  rw [sightStep]
  cases hf : l.form with
  | block _ _ => simp [Label.isBlock, hf] at hb
  | «variable» d k => exact Or.inr (Or.inl ⟨d, k, rfl, rfl⟩)
  | operator _ _ _ => exact Or.inl ⟨id, Or.inl rfl, (List.map_id _).symm⟩
  | initializer =>
    dsimp only
    rw [startStep.eq_def]
    split
    · next v more rest =>
      split
      · next ho => exact Or.inr (Or.inr ⟨rfl, v, more ++ rest.flatten, rfl, ho, rfl⟩)
      · exact Or.inl ⟨_, Or.inr ⟨false, rfl⟩, rfl⟩
    · exact Or.inl ⟨_, Or.inr ⟨false, rfl⟩, rfl⟩
  | declaration r => exact Or.inl ⟨_, Or.inr ⟨r, rfl⟩, rfl⟩
  | _ => exact Or.inl ⟨_, Or.inr ⟨false, rfl⟩, rfl⟩

/-! What is inside a block shows unchanged through the nodes above. -/

theorem isOuter_under (b : Bool) (s : Sight) : (s.under b).isOuter = s.isOuter := by
  cases s <;> rfl

theorem inner_step {x : Sight} {parts : List (List Sight)} (hb : l.isBlock = false)
    (hx : x.isOuter = false)
    (hd : ∀ y ∈ parts.flatten, y.isOuter = false → ∀ b, y.under b = y) :
    x ∈ sightStep l parts ↔ x ∈ parts.flatten := by
  have hmap : ∀ (xs : List Sight) (g : Sight → Sight), (g = id ∨ ∃ b, g = Sight.under b) →
      (∀ y ∈ xs, y ∈ parts.flatten) → (x ∈ xs.map g ↔ x ∈ xs) := by
    intro xs g hg hsub
    have hfix : ∀ y ∈ xs, y.isOuter = false → g y = y := by
      intro y hy ho
      rcases hg with rfl | ⟨b, rfl⟩
      · rfl
      · exact hd y (hsub y hy) ho b
    constructor
    · intro hm
      obtain ⟨y, hy, rfl⟩ := List.mem_map.mp hm
      have ho : y.isOuter = false := by
        rcases hg with rfl | ⟨b, rfl⟩
        · exact hx
        · rwa [isOuter_under] at hx
      rw [hfix y hy ho]
      exact hy
    · intro hm
      exact List.mem_map.mpr ⟨x, hm, hfix x hm hx⟩
  have hne : ∀ v : Mention, v.isOuter = true → x ≠ .mention v := by
    rintro v hv rfl
    rw [Sight.isOuter, hv] at hx
    cases hx
  rcases sightStep_cases hb parts with ⟨g, hg, he⟩ | ⟨d, k, -, he⟩ | ⟨-, v, more, hflat, hv, he⟩
  · rw [he]
    exact hmap _ g hg fun _ hy => hy
  · rw [he, List.mem_cons, or_iff_right (hne (l.mention k) rfl)]
    exact hmap _ _ (Or.inr ⟨false, rfl⟩) fun _ hy => hy
  · rw [he, List.mem_append, List.mem_singleton, or_iff_left (hne (v.start l) hv), hflat,
      List.mem_cons, or_iff_right (hne v hv)]
    refine hmap more _ (Or.inr ⟨false, rfl⟩) fun y hy => ?_
    rw [hflat]
    exact List.mem_cons_of_mem _ hy

/-- The role of a variable inside a block is decided. -/
theorem under_inner {x : Sight} (hx : x.isOuter = false) (h : x ∈ n.fold sightStep) :
    ∀ b, x.under b = x := by
  induction n using induct generalizing x with
  | h l ks ih =>
    intro b
    rw [fold_mk] at h
    by_cases hb : l.isBlock = true
    · obtain ⟨kind, scope, hf⟩ := Label.isBlock_iff.mp hb
      rw [sightStep, hf] at h
      rcases List.mem_append.mp h with h | h
      · obtain ⟨gs, f, hs, he, y, hy, rfl⟩ := Sight.mem_enclose.mp h
        have hf : f ∈ (ks.map (fold sightStep)).map (·.map (Sight.under false)) := by simp [he]
        obtain ⟨xs, -, rfl⟩ := List.mem_map.mp hf
        obtain ⟨z, -, rfl⟩ := List.mem_map.mp hy
        rw [Sight.under_within, Sight.under_under]
      · cases List.mem_singleton.mp h
        rfl
    · have hkids : ∀ y ∈ (ks.map (fold sightStep)).flatten, y.isOuter = false →
          ∀ b, y.under b = y := by
        intro y hy ho
        obtain ⟨_, hp, hy⟩ := List.mem_flatten.mp hy
        obtain ⟨k, hm, rfl⟩ := List.mem_map.mp hp
        exact ih k hm ho hy
      exact hkids x ((inner_step (by simpa using hb) hx hkids).mp h) hx b

theorem inner_sights {x : Sight} (hx : x.isOuter = false) :
    x ∈ n.sights b ↔ x ∈ n.fold sightStep := by
  rw [sights, List.mem_map]
  constructor
  · rintro ⟨y, hy, rfl⟩
    rw [isOuter_under] at hx
    rw [under_inner hx hy]
    exact hy
  · intro h
    exact ⟨x, h, under_inner hx h b⟩

theorem inner_mk {x : Sight} (hb : l.isBlock = false) (hx : x.isOuter = false) :
    x ∈ (mk l ks).sights b ↔ ∃ k ∈ ks, x ∈ k.sights false := by
  rw [inner_sights hx, fold_mk, inner_step hb hx, List.mem_flatten]
  · simp only [List.mem_map, exists_exists_and_eq_and, inner_sights hx]
  · intro y hy ho
    obtain ⟨_, hp, hy⟩ := List.mem_flatten.mp hy
    obtain ⟨k, -, rfl⟩ := List.mem_map.mp hp
    exact under_inner ho hy

theorem sightStep_sketch (l : Label) : sightStep l.sketch = sightStep l := by
  funext parts
  simp only [sightStep, Label.sketch]
  cases l.form <;> rfl

theorem sightStep_inOrder : InOrder (fun _ => []) sightStep := by
  refine .of_sketch sightStep_sketch (fun _ _ => rfl) ?_ ?_
  · intro l x ho _
    obtain ⟨s, a, k, hf⟩ := Label.isOperator_iff.mp ho
    simp [sightStep, hf]
  · intro l x y ho _
    obtain ⟨s, a, k, hf⟩ := Label.isOperator_iff.mp ho
    simp [sightStep, hf]

theorem sights_prepare {within : Option Nat} (hn : n.Upper Label.Planted)
    (h : n.prepare within = .ok m) (b : Bool) : m.sights b = n.sights b := by
  obtain ⟨u, hu, h⟩ := except_bind_ok.mp h
  rw [hn.setUp] at hu
  cases hu
  obtain ⟨c, hc, h⟩ := except_bind_ok.mp h
  rw [sights, fold_reorder sightStep_inOrder h, fold_complete sightStep_sketch hc, sights]

end Node

end TokenShell
