import PathAudit.Proofs.Syntax.Outline

/-! The blocks of an outline are the pairs of braces. A brace that closes pairs with the nearest one
before it that is still open, and the reader of items, which keeps no stack, nests its blocks as the
pairs are nested: each statement and each block stands directly in the block of the innermost pair
around it, and braces without a partner leave nothing. -/

namespace PathAudit

open PathAudit.Parser

/-- The pairs of braces, by the places of their tokens, in the order in which they close. The stack holds
the places of the braces that are still open, the nearest first; the tokens begin at place `i`. -/
def bracePairs (stack : List Nat) (i : Nat) : List PlacedToken → List (Nat × Nat)
  | [] => []
  | ⟨.punctuation .openBrace, _⟩ :: r => bracePairs (i :: stack) (i + 1) r
  | ⟨.punctuation .closeBrace, _⟩ :: r =>
    match stack with
    | [] => bracePairs [] (i + 1) r
    | opening :: stack => (opening, i) :: bracePairs stack (i + 1) r
  | _ :: r => bracePairs stack (i + 1) r

def Encloses (pair : Nat × Nat) (place : Nat) : Prop :=
  pair.1 < place ∧ place < pair.2

/-- The pair that is the innermost around the place, or none if none is around it. -/
def Innermost (pairs : List (Nat × Nat)) (place : Nat) : Option (Nat × Nat) → Prop
  | none => ∀ pair ∈ pairs, ¬Encloses pair place
  | some inner => inner ∈ pairs ∧ Encloses inner place ∧
      ∀ pair ∈ pairs, Encloses pair place → pair.1 ≤ inner.1 ∧ inner.2 ≤ pair.2

/-- The places of some items: of the keyword of a statement, and of the braces of a block. -/
inductive Forest
  | nil
  | statement (start : Nat) (rest : Forest)
  | block (opening closing : Nat) (inner rest : Forest)

namespace Forest

/-- The items that stand at the places. A statement is what is read at its keyword. -/
def items (ts : List PlacedToken) : Forest → List Item
  | nil => []
  | statement start rest =>
    ((statementAt (ts.drop start)).map (.variable ·.1)).toList ++ items ts rest
  | block _ _ inner rest => .block (items ts inner) :: items ts rest

def blocks : Forest → List (Nat × Nat)
  | nil => []
  | statement _ rest => blocks rest
  | block opening closing inner rest => blocks inner ++ (opening, closing) :: blocks rest

def starts : Forest → List Nat
  | nil => []
  | statement start rest => start :: starts rest
  | block _ _ inner rest => starts inner ++ starts rest

def sites (parent : Option (Nat × Nat)) : Forest → List (Option (Nat × Nat) × Nat)
  | nil => []
  | statement start rest => (parent, start) :: sites parent rest
  | block opening closing inner rest =>
    (parent, opening) :: (sites (some (opening, closing)) inner ++ sites parent rest)

def Ordered (lo : Nat) : Forest → Nat → Prop
  | nil, hi => lo ≤ hi
  | statement start rest, hi => lo ≤ start ∧ Ordered (start + 1) rest hi
  | block opening closing inner rest, hi =>
    lo ≤ opening ∧ Ordered (opening + 1) inner closing ∧ Ordered (closing + 1) rest hi

def append : Forest → Forest → Forest
  | nil, after => after
  | statement start rest, after => statement start (append rest after)
  | block opening closing inner rest, after => block opening closing inner (append rest after)

variable {f g : Forest} {lo mid hi : Nat} {ts : List PlacedToken}

@[simp] theorem items_append (ts : List PlacedToken) (f g : Forest) :
    (f.append g).items ts = f.items ts ++ g.items ts := by
  induction f with
  | nil => rfl
  | statement start rest ih => simp [append, items, ih]
  | block opening closing inner rest _ ih => simp [append, items, ih]

@[simp] theorem blocks_append (f g : Forest) : (f.append g).blocks = f.blocks ++ g.blocks := by
  induction f with
  | nil => rfl
  | statement start rest ih => simp [append, blocks, ih]
  | block opening closing inner rest _ ih => simp [append, blocks, ih]

@[simp] theorem starts_append (f g : Forest) : (f.append g).starts = f.starts ++ g.starts := by
  induction f with
  | nil => rfl
  | statement start rest ih => simp [append, starts, ih]
  | block opening closing inner rest _ ih => simp [append, starts, ih]

theorem Ordered.mono {lo' : Nat} (h : Ordered lo f hi) (hlo : lo' ≤ lo) : Ordered lo' f hi := by
  cases f with
  | nil => exact Nat.le_trans hlo h
  | statement start rest => exact ⟨Nat.le_trans hlo h.1, h.2⟩
  | block opening closing inner rest => exact ⟨Nat.le_trans hlo h.1, h.2⟩

theorem Ordered.append (hf : Ordered lo f mid) (hg : Ordered mid g hi) :
    Ordered lo (f.append g) hi := by
  induction f generalizing lo with
  | nil => exact hg.mono hf
  | statement start rest ih => exact ⟨hf.1, ih hf.2⟩
  | block opening closing inner rest _ ih => exact ⟨hf.1, hf.2.1, ih hf.2.2⟩

theorem Ordered.le (h : Ordered lo f hi) : lo ≤ hi := by
  induction f generalizing lo hi with
  | nil => exact h
  | statement start rest ih =>
    have := ih h.2
    have := h.1
    omega
  | block opening closing inner rest ihi ihr =>
    have := h.1
    have := ihi h.2.1
    have := ihr h.2.2
    omega

theorem Ordered.blocks (h : Ordered lo f hi) :
    ∀ pair ∈ f.blocks, lo ≤ pair.1 ∧ pair.1 < pair.2 ∧ pair.2 < hi := by
  induction f generalizing lo hi with
  | nil => exact fun pair hp => by cases hp
  | statement start rest ih =>
    intro pair hp
    have := ih h.2 pair hp
    have := h.1
    omega
  | block opening closing inner rest ihi ihr =>
    obtain ⟨hlo, hinner, hrest⟩ := h
    have hc := hinner.le
    have hr := hrest.le
    intro pair hp
    rcases List.mem_append.1 hp with hp | hp
    · have := ihi hinner pair hp
      omega
    rcases List.mem_cons.1 hp with rfl | hp
    · dsimp only
      omega
    · have := ihr hrest pair hp
      omega

theorem Ordered.not_encloses {place : Nat} (h : Ordered lo f hi) (hplace : place ≤ lo ∨ hi ≤ place) :
    ∀ pair ∈ f.blocks, ¬Encloses pair place := by
  intro pair hp hencloses
  have := h.blocks pair hp
  have := hencloses.1
  have := hencloses.2
  omega

theorem forall_mem_blocks {P : Nat × Nat → Prop} {opening closing : Nat} {inner rest : Forest} :
    (∀ pair ∈ (block opening closing inner rest).blocks, P pair) ↔
      (∀ pair ∈ inner.blocks, P pair) ∧ P (opening, closing) ∧ ∀ pair ∈ rest.blocks, P pair := by
  rw [Forest.blocks, List.forall_mem_append, List.forall_mem_cons]

/-- Where places are ordered, an item stands in the innermost of the blocks around its place. When none
of these blocks is around it, it stands where all of them do. -/
theorem Ordered.sites {parent : Option (Nat × Nat)} {site : Option (Nat × Nat) × Nat}
    (h : Ordered lo f hi) (hs : site ∈ f.sites parent) :
    (lo ≤ site.2 ∧ site.2 < hi) ∧
      (site.1 = parent ∧ Innermost f.blocks site.2 none ∨
        ∃ pair, site.1 = some pair ∧ Innermost f.blocks site.2 (some pair)) := by
  induction f generalizing lo hi parent with
  | nil => cases hs
  | statement start rest ih =>
    obtain ⟨hlo, hrest⟩ := h
    rcases List.mem_cons.1 hs with rfl | hs
    · exact ⟨⟨hlo, hrest.le⟩, .inl ⟨rfl, hrest.not_encloses (.inl (Nat.le_succ start))⟩⟩
    · obtain ⟨hplace, hparent⟩ := ih hrest hs
      exact ⟨by omega, hparent⟩
  | block opening closing inner rest ihi ihr =>
    obtain ⟨hlo, hinner, hrest⟩ := h
    have hc := hinner.le
    have hr := hrest.le
    rcases List.mem_cons.1 hs with rfl | hs
    · have hself : ¬Encloses (opening, closing) opening := fun h => Nat.lt_irrefl _ h.1
      exact ⟨⟨hlo, by dsimp only; omega⟩, .inl ⟨rfl, forall_mem_blocks.2
        ⟨hinner.not_encloses (.inl (Nat.le_succ opening)), hself,
          hrest.not_encloses (.inl (by dsimp only; omega))⟩⟩⟩
    rcases List.mem_append.1 hs with hs | hs
    · obtain ⟨hplace, hparent⟩ := ihi hinner hs
      have hafter : ∀ q ∈ rest.blocks, ¬Encloses q site.2 := hrest.not_encloses (.inl (by omega))
      refine ⟨by omega, .inr ?_⟩
      rcases hparent with ⟨hsame, hnone⟩ | ⟨pair, hsome, hmem, hencloses, hmin⟩
      · refine ⟨(opening, closing), hsame, ?_, ⟨by dsimp only; omega, hplace.2⟩, ?_⟩
        · simp [Forest.blocks]
        · exact forall_mem_blocks.2 ⟨fun q hq he => absurd he (hnone q hq),
            fun _ => ⟨Nat.le_refl _, Nat.le_refl _⟩, fun q hq he => absurd he (hafter q hq)⟩
      · have hrange := hinner.blocks pair hmem
        refine ⟨pair, hsome, List.mem_append_left _ hmem, hencloses, ?_⟩
        exact forall_mem_blocks.2 ⟨hmin, fun _ => ⟨by dsimp only; omega, by dsimp only; omega⟩,
          fun q hq he => absurd he (hafter q hq)⟩
    · obtain ⟨hplace, hparent⟩ := ihr hrest hs
      have hbefore : ∀ q ∈ inner.blocks, ¬Encloses q site.2 := hinner.not_encloses (.inr (by omega))
      have hself : ¬Encloses (opening, closing) site.2 := by
        intro hencloses
        have := hencloses.2
        omega
      refine ⟨by omega, ?_⟩
      rcases hparent with ⟨hsame, hnone⟩ | ⟨pair, hsome, hmem, hencloses, hmin⟩
      · exact .inl ⟨hsame, forall_mem_blocks.2 ⟨hbefore, hself, hnone⟩⟩
      · refine .inr ⟨pair, hsome, ?_, hencloses, ?_⟩
        · exact List.mem_append_right _ (List.mem_cons_of_mem _ hmem)
        · exact forall_mem_blocks.2 ⟨fun q hq he => absurd he (hbefore q hq),
            fun he => absurd he hself, hmin⟩

end Forest

namespace Parser

variable {all ts r rest : List PlacedToken} {t : PlacedToken} {n i : Nat} {stack : List Nat}

theorem bracePairs_cons (hopen : t.token ≠ .punctuation .openBrace)
    (hclose : t.token ≠ .punctuation .closeBrace) :
    bracePairs stack i (t :: r) = bracePairs stack (i + 1) r := by
  rw [bracePairs]
  · intro s h
    exact hopen (by rw [h])
  · intro s h
    exact hclose (by rw [h])

theorem bracePairs_drop (h : Covers isStatementToken ts n) :
    bracePairs stack i ts = bracePairs stack (i + n) (ts.drop n) := by
  induction n generalizing ts i with
  | zero => rfl
  | succ n ih =>
    cases ts with
    | nil => rfl
    | cons t r =>
      obtain ⟨ht, hr⟩ := h.of_cons
      rw [List.drop_succ_cons, bracePairs_cons, ih hr, Nat.add_right_comm, Nat.add_assoc]
      · intro he
        rw [he] at ht
        cases ht
      · intro he
        rw [he] at ht
        cases ht

/-- The places at which statements start, for tokens that begin at place `i`. -/
def startsFrom (i : Nat) (ts : List PlacedToken) : List Nat :=
  (statementStarts ts).map (i + ·)

theorem startsFrom_cons (i : Nat) (t : PlacedToken) (r : List PlacedToken) :
    startsFrom i (t :: r) =
      (if startsStatement (t :: r) then [i] else []) ++ startsFrom (i + 1) r := by
  rw [startsFrom, statementStarts_cons, List.map_append, List.map_map, startsFrom]
  congr 1
  · split <;> rfl
  · apply List.map_congr_left
    intro k _
    have hplace : i + (k + 1) = i + 1 + k := by omega
    exact hplace

theorem startsFrom_of_none (h : statementAt (t :: r) = none) :
    startsFrom i (t :: r) = startsFrom (i + 1) r := by
  rw [startsFrom_cons, ← isSome_statementAt, h]
  rfl

theorem startsFrom_drop (h : Covers isStatementToken ts n) :
    startsFrom i ts = startsFrom (i + n) (ts.drop n) := by
  induction n generalizing ts i with
  | zero => rfl
  | succ n ih =>
    cases ts with
    | nil => rfl
    | cons t r =>
      obtain ⟨ht, hr⟩ := h.of_cons
      rw [List.drop_succ_cons, startsFrom_of_none, ih hr, Nat.add_right_comm, Nat.add_assoc]
      apply statementAt_eq_none
      intro word hw
      rw [hw] at ht
      cases ht

theorem covers_statementAt {s : Statement} (h : statementAt ts = some (s, n)) :
    ∃ word span r k, ts = ⟨.keyword word, span⟩ :: r ∧ n = k + 1 ∧ Covers isStatementToken r k := by
  obtain ⟨word, span, r, k, rfl, hs, rfl⟩ := exists_of_statementAt h
  exact ⟨word, span, r, k, rfl, rfl, covers_statement hs⟩

/-- The forest has the places of the items that the reader found in the tokens between place `i` and
place `j`. -/
structure Places (all : List PlacedToken) (i j : Nat) (is : List Item) (f : Forest) : Prop where
  items : f.items all = is
  ordered : f.Ordered i j
  pairs (stack : List Nat) :
    bracePairs stack i (all.drop i) = f.blocks ++ bracePairs stack j (all.drop j)
  starts : startsFrom i (all.drop i) = f.starts ++ startsFrom j (all.drop j)

theorem drop_succ_of_drop (h : all.drop i = t :: r) : all.drop (i + 1) = r := by
  rw [← List.drop_drop, h]
  rfl

/-- What the reader of items finds has places. -/
theorem exists_places {is : List Item} (h : ItemsRun ts is rest) (hall : all.drop i = ts) :
    ∃ f j, all.drop j = rest ∧ Places all i j is f := by
  induction h generalizing i with
  | stop _ => exact ⟨.nil, i, hall, rfl, Nat.le_refl i, fun _ => rfl, rfl⟩
  | @statement ts s n more rest hs _ ih =>
    obtain ⟨word, span, r, k, rfl, rfl, hcovers⟩ := covers_statementAt hs
    have hrest : all.drop (i + (k + 1)) = r.drop k := by
      rw [← List.drop_drop, hall]
      rfl
    obtain ⟨f, j, hj, hf⟩ := ih (hrest.trans (by rfl))
    refine ⟨.statement i f, j, hj, ?_, ⟨Nat.le_refl i, ?_⟩, ?_, ?_⟩
    · rw [Forest.items, hall, hs, hf.items]
      rfl
    · exact hf.ordered.mono (by omega)
    · intro stack
      have hpairs := hf.pairs stack
      rw [hrest] at hpairs
      rw [hall, bracePairs_cons (by simp) (by simp), bracePairs_drop hcovers, Forest.blocks,
        ← hpairs, Nat.add_assoc, Nat.add_comm 1]
    · have hstarts := hf.starts
      have hhere : startsStatement (⟨.keyword word, span⟩ :: r) = true := by
        rw [← isSome_statementAt, hs]
        rfl
      rw [hrest] at hstarts
      rw [hall, startsFrom_cons, hhere, startsFrom_drop hcovers, Forest.starts, Nat.add_assoc,
        Nat.add_comm 1, hstarts]
      rfl
  | @block span r inner t r' more rest hi _ ih ih' =>
    obtain ⟨f, closing, hclosing, hf⟩ := ih (drop_succ_of_drop hall)
    obtain ⟨g, j, hj, hg⟩ := ih' (drop_succ_of_drop hclosing)
    obtain ⟨token, span'⟩ := t
    cases (show token = _ from hi.atClose)
    refine ⟨.block i closing f g, j, hj, ?_, ⟨Nat.le_refl i, hf.ordered, hg.ordered⟩, ?_, ?_⟩
    · rw [Forest.items, hf.items, hg.items]
    · intro stack
      have hinner := hf.pairs (i :: stack)
      have hrest := hg.pairs stack
      rw [drop_succ_of_drop hall, hclosing, bracePairs] at hinner
      rw [drop_succ_of_drop hclosing] at hrest
      rw [hall, bracePairs, hinner, hrest, Forest.blocks, List.append_assoc, List.cons_append]
    · have hinner := hf.starts
      have hrest := hg.starts
      rw [drop_succ_of_drop hall, hclosing, startsFrom_of_none rfl] at hinner
      rw [drop_succ_of_drop hclosing] at hrest
      rw [hall, startsFrom_of_none rfl, hinner, hrest, Forest.starts, List.append_assoc]
  | @unclosed span r inner _ ih =>
    -- nothing is left, so the brace that is still open makes no pair
    obtain ⟨f, j, hj, hf⟩ := ih (drop_succ_of_drop hall)
    refine ⟨f, j, hj, hf.items, hf.ordered.mono (Nat.le_succ i), ?_, ?_⟩
    · intro stack
      have hpairs := hf.pairs (i :: stack)
      rw [drop_succ_of_drop hall, hj] at hpairs
      rw [hall, hj]
      exact hpairs
    · have hstarts := hf.starts
      rw [drop_succ_of_drop hall] at hstarts
      rw [hall, startsFrom_of_none rfl, hstarts]
  | skip hn ho hc _ ih =>
    obtain ⟨f, j, hj, hf⟩ := ih (drop_succ_of_drop hall)
    refine ⟨f, j, hj, hf.items, hf.ordered.mono (Nat.le_succ i), ?_, ?_⟩
    · intro stack
      have hpairs := hf.pairs stack
      rw [drop_succ_of_drop hall] at hpairs
      rw [hall, bracePairs_cons ho hc, hpairs]
    · have hstarts := hf.starts
      rw [drop_succ_of_drop hall] at hstarts
      rw [hall, startsFrom_of_none hn, hstarts]

/-- The items of an outline have places, and the pairs and the starts are all those of its tokens. -/
theorem exists_forest {is : List Item} (h : OutlineRun ts is) (hall : all.drop i = ts) :
    ∃ (f : Forest) (j : Nat), f.items all = is ∧ f.Ordered i j ∧ bracePairs [] i ts = f.blocks ∧
      startsFrom i ts = f.starts := by
  induction h generalizing i with
  | finish hrun =>
    obtain ⟨f, j, hj, hf⟩ := exists_places hrun hall
    have hpairs := hf.pairs []
    have hstarts := hf.starts
    rw [hall, hj] at hpairs hstarts
    exact ⟨f, j, hf.items, hf.ordered, hpairs.trans (List.append_nil _),
      hstarts.trans (List.append_nil _)⟩
  | @stray ts is span r more hrun _ ih =>
    obtain ⟨f, j, hj, hf⟩ := exists_places hrun hall
    obtain ⟨g, k, hitems, hordered, hpairs', hstarts'⟩ := ih (drop_succ_of_drop hj)
    have hpairs := hf.pairs []
    have hstarts := hf.starts
    rw [hall, hj] at hpairs hstarts
    refine ⟨f.append g, k, ?_, hf.ordered.append (hordered.mono (Nat.le_succ j)), ?_, ?_⟩
    · rw [Forest.items_append, hf.items, hitems]
    · rw [hpairs, bracePairs, hpairs', Forest.blocks_append]
    · rw [hstarts, startsFrom_of_none rfl, hstarts', Forest.starts_append]

/-- The blocks of an outline are the pairs of braces of its tokens. Its items have places in the tokens,
such that the blocks are at the pairs, in their order, and the statements at the keywords that a name
follows; and each item stands directly in the block of the innermost pair around its place, or in
none if there is no pair around it. A brace that is in no pair leaves nothing. -/
theorem blocks_eq_bracePairs (ts : List PlacedToken) :
    ∃ f : Forest, f.items ts = topLevel ts ∧ f.blocks = bracePairs [] 0 ts ∧
      f.starts = statementStarts ts ∧
      ∀ site ∈ f.sites none, Innermost (bracePairs [] 0 ts) site.2 site.1 := by
  have hall : ts.drop 0 = ts := rfl
  obtain ⟨f, j, hitems, hordered, hpairs, hstarts⟩ := exists_forest (topLevel_run ts) hall
  refine ⟨f, hitems, hpairs.symm, ?_, ?_⟩
  · rw [← hstarts, startsFrom]
    simp
  · intro site hs
    rw [hpairs]
    rcases (hordered.sites hs).2 with ⟨hsame, hnone⟩ | ⟨pair, hsome, hpair⟩
    · rwa [hsame]
    · rwa [hsome]

example : bracePairs [] 0 ([.closeBrace, .openBrace, .openBrace, .closeBrace, .openBrace].map
    fun mark => ⟨.punctuation mark, default⟩) = [(2, 3)] := by
  decide

end Parser

end PathAudit
