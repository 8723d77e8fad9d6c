import Mathlib.Data.List.Basic
import PathAudit.Declaration
import PathAudit.Proofs.Syntax.Barrier
import PathAudit.Proofs.Syntax.TypeGrammar

/-! Which annotations opt into checking. An annotation declares the name that it ends with, seen through
parentheses, when it is a name with or without arguments; any other type declares no name. A variable
with a string literal is checked exactly when its annotation declares the name of a marker. -/

namespace PathAudit

open PathAudit.Parser TypeGrammar

/-- The tokens are a type that declares this name, or a type that declares none. -/
inductive Declares : Option String → List Token → Prop
  | name {lead args} (q : QualifiedName) : IsLead lead → Yields .arguments args →
      Declares (some q.last.name) (lead ++ (q.tokens ++ args))
  | parenthesized {lead name w} : IsLead lead → Declares name w →
      Declares name (lead ++ .punctuation .openParen :: (w ++ [.punctuation .closeParen]))
  | literal {lead} (value : String) : IsLead lead → Declares none (lead ++ [.string value])
  | array {lead w} : IsLead lead → Yields .member w →
      Declares none (lead ++ (w ++ [.punctuation .openBracket, .punctuation .closeBracket]))
  | union {lead w u} : IsLead lead → Yields .member w → Yields .union u →
      Declares none (lead ++ (w ++ .punctuation .pipe :: u))

namespace Parser

variable {ts r : List PlacedToken} {t : TypeExpr} {w lead rest : List Token} {name : Option String}
  {n k j : Nat}

theorem declaredName_arrayOf (t : TypeExpr) (j : Nat) : (arrayOf t (j + 1)).declaredName = none := by
  induction j generalizing t with
  | zero => rfl
  | succ j ih => exact ih (.array t)

theorem typeExpr_of_primary (hlead : IsLead lead) (h : ts.map PlacedToken.token = lead ++ (w ++ rest))
    (hread : primary (ts.drop lead.length) = some (t, w.length)) (hrest : Avoids typeMarks rest) :
    typeExpr ts = some (t, (lead ++ w).length) := by
  have hafter := map_drop (map_drop h)
  have hmember := member_of_primary (j := 0) hread hafter (hrest.mono (by decide))
  have halt := alternatives_none hafter (hrest _ (by decide))
  exact typeExpr_of_union hlead h (union_of_member hmember halt)

/-- A type of the grammar is read as one that declares the same name. -/
theorem typeExpr_of_declares (h : Declares name w) (hts : ts.map PlacedToken.token = w ++ rest)
    (hrest : Avoids typeMarks rest) :
    ∃ t, typeExpr ts = some (t, w.length) ∧ t.declaredName = name := by
  induction h generalizing ts rest with
  | @name lead args q hlead hargs =>
    rw [List.append_assoc] at hts
    have hafter := map_drop hts
    rw [List.append_assoc] at hafter
    obtain ⟨q', us, hlast, hread⟩ := primary_of_name q hafter hargs
      (fun r hr => isRead_of_yields hargs r rest hr (hrest.mono (by decide))) (hrest.mono (by decide))
    exact ⟨_, typeExpr_of_primary hlead hts hread hrest, congrArg some hlast⟩
  | @parenthesized lead name w hlead hw ih =>
    rw [List.append_assoc] at hts
    have hafter := map_drop hts
    rw [List.cons_append, List.append_assoc] at hafter
    obtain ⟨span, r, hopen, hr⟩ := exists_of_map_eq_cons hafter
    obtain ⟨t, hread, hname⟩ := ih hr (avoids_cons.2 (by decide))
    obtain ⟨span', r', hclose, -⟩ := exists_of_map_eq_cons (map_drop hr)
    have hprimary : primary (ts.drop lead.length) = some (.parenthesized t,
        (Token.punctuation .openParen :: (w ++ [.punctuation .closeParen])).length) := by
      rw [hopen, primary_of_type hread hclose]
      simp
    exact ⟨_, typeExpr_of_primary hlead hts hprimary hrest, hname⟩
  | @literal lead value hlead =>
    rw [List.append_assoc] at hts
    have hprimary := primary_literal value (map_drop hts)
    exact ⟨_, typeExpr_of_primary hlead hts hprimary hrest, rfl⟩
  | @array lead w hlead hw =>
    rw [List.append_assoc] at hts
    obtain ⟨t, hread⟩ :=
      member_of_array (j := 0) (isRead_of_yields hw) (map_drop hts) (hrest.mono (by decide))
    have halt := alternatives_none (map_drop (map_drop hts)) (hrest _ (by decide))
    exact ⟨_, typeExpr_of_union hlead hts (union_of_member hread halt), rfl⟩
  | @union lead w u hlead hw hu =>
    rw [List.append_assoc] at hts
    obtain ⟨ms, hread⟩ :=
      union_of_several (isRead_of_yields hw) (isRead_of_yields hu) (map_drop hts) hrest
    exact ⟨_, typeExpr_of_union hlead hts hread, rfl⟩

section Declared

variable (hinner : ∀ k < n, ∀ (r : List PlacedToken) (inner : TypeExpr),
  typeExpr r = some (inner, k) → Declares inner.declaredName (taken r k))

include hinner

theorem declares_of_primary (hlead : IsLead lead) (h : primary ts = some (t, n)) :
    Declares t.declaredName (lead ++ taken ts n) := by
  cases primaryRead h with
  | name ha =>
    rw [taken_name, ← List.append_nil (QualifiedName.tokens _)]
    exact .name _ hlead .absent
  | applied ha =>
    rw [taken_reference]
    exact .name _ hlead (yields_typeArguments ha)
  | literal => exact .literal _ hlead
  | @parenthesized span r inner k span' after ht hclose =>
    rw [taken_cons, taken_succ hclose]
    exact .parenthesized hlead (hinner k (by omega) r inner ht)

theorem declares_of_member (hlead : IsLead lead) (h : member ts = some (t, n)) :
    Declares t.declaredName (lead ++ taken ts n) := by
  obtain ⟨element, k, hp, rfl, rfl⟩ := member_eq_some h
  have hw := yields_primary hp
  cases hpairs : bracketPairs (ts.drop k) with
  | zero => exact declares_of_primary (fun j hj => hinner j (by omega)) hlead hp
  | succ j =>
    rw [← hpairs, taken_add, taken_bracketPairs, hpairs, declaredName_arrayOf, brackets_succ,
      ← List.append_assoc (taken ts k)]
    exact .array hlead (yields_brackets (.plain hw) j)

theorem declares_of_union (hlead : IsLead lead) (h : union ts = some (t, n)) :
    Declares t.declaredName (lead ++ taken ts n) := by
  obtain ⟨first, k, hm, rfl, rfl⟩ := union_eq_some h
  rcases yields_alternatives (ts.drop k) with hnone | ⟨hsome, u, hu, htaken⟩
  · rw [hnone]
    exact declares_of_member (fun j hj => hinner j (by omega)) hlead hm
  · obtain ⟨second, more, hmore⟩ := List.exists_cons_of_ne_nil hsome
    rw [taken_add, htaken, hmore]
    exact .union hlead (yields_member hm) hu

end Declared

/-- What is read as a type belongs to the grammar, and declares there the name that it is read to
declare. -/
theorem declares_of_typeExpr (h : typeExpr ts = some (t, n)) :
    Declares t.declaredName (taken ts n) := by
  induction n using Nat.strongRecOn generalizing ts t with
  | ind n ih =>
    obtain ⟨k, hu, rfl⟩ := typeExpr_eq_some h
    rw [taken_add]
    exact declares_of_union (fun j hj r inner hr => ih j (by omega) hr) (isLead_pipe ts) hu

theorem name_mem_of_declarator {d : Declarator} (h : declarator ts = some (d, n)) :
    .identifier d.name.name ∈ ts.map PlacedToken.token := by
  fun_cases declarator ts with
  | case1 name span r a k ha e j he =>
    simp only [declarator, ha, he, Option.some.injEq, Prod.mk.injEq] at h
    obtain ⟨rfl, -⟩ := h
    exact List.mem_cons_self
  | case2 => simp_all [declarator]

theorem name_mem_of_declarators (ts : List PlacedToken) :
    ∀ d ∈ (declarators ts).1, .identifier d.name.name ∈ ts.map PlacedToken.token := by
  fun_induction declarators ts with
  | case1 s r h => simp
  | case2 s r d n h more k hk ih =>
    rw [hk] at ih
    intro e he
    apply List.mem_cons_of_mem
    rcases List.mem_cons.1 he with rfl | he
    · exact name_mem_of_declarator h
    · exact List.map_subset _ (List.drop_subset n r) (ih e he)
  | case3 => simp

/-- A keyword begins declarators as a comma does. -/
theorem declaratorsIn_keyword (word : Keyword) (span : Text.Span) (r : List PlacedToken) :
    declaratorsIn (⟨.keyword word, span⟩ :: r) =
      (declarators (⟨.punctuation .comma, span⟩ :: r)).1 ++ declaratorsIn r := by
  rw [declaratorsIn_cons, statementAt, declarators, statement]
  cases declarator r with
  | none => rfl
  | some dn => rfl

theorem name_mem_of_declaratorsIn (ts : List PlacedToken) :
    ∀ d ∈ declaratorsIn ts, .identifier d.name.name ∈ ts.map PlacedToken.token := by
  induction ts with
  | nil =>
    rw [declaratorsIn_eq_scan]
    simp [scan]
  | cons t r ih =>
    intro d hd
    obtain ⟨token, span⟩ := t
    cases token with
    | keyword word =>
      rw [declaratorsIn_keyword] at hd
      apply List.mem_cons_of_mem
      rcases List.mem_append.1 hd with hd | hd
      · simpa using name_mem_of_declarators _ d hd
      · exact ih d hd
    | _ => exact List.mem_cons_of_mem _ (ih d (by rwa [declaratorsIn_cons] at hd))

/-- Among the declarators of a statement and of what follows, only the first has a name that does not
occur again. -/
theorem declaratorsIn_statement (word : Keyword) (s : Text.Span) {s' : Text.Span} {name : String}
    {d : Declarator} (h : declarator (⟨.identifier name, s'⟩ :: r) = some (d, n)) :
    ∃ more, declaratorsIn (⟨.keyword word, s⟩ :: ⟨.identifier name, s'⟩ :: r) = d :: more ∧
      ∀ e ∈ more, .identifier e.name.name ∈ r.map PlacedToken.token := by
  obtain ⟨k, rfl⟩ : ∃ k, n = k + 1 := by
    simp only [declarator, Option.some.injEq, Prod.mk.injEq] at h
    obtain ⟨-, rfl⟩ := h
    exact ⟨_, by rw [Nat.add_assoc, Nat.add_comm]⟩
  have hfirst : (declarators (⟨.punctuation .comma, s⟩ :: ⟨.identifier name, s'⟩ :: r)).1 =
      d :: (declarators (r.drop k)).1 := by
    rw [declarators, h]
    rfl
  have hrest : declaratorsIn (⟨.identifier name, s'⟩ :: r) = declaratorsIn r := by
    rw [declaratorsIn_cons]
    rfl
  refine ⟨(declarators (r.drop k)).1 ++ declaratorsIn r, ?_, ?_⟩
  · rw [declaratorsIn_keyword, hfirst, hrest, List.cons_append]
  · intro e he
    rcases List.mem_append.1 he with he | he
    · exact List.map_subset _ (List.drop_subset k r) (name_mem_of_declarators _ e he)
    · exact name_mem_of_declaratorsIn r e he

end Parser

theorem PathKind.marker_of_ofMarker? {name : String} {kind : PathKind}
    (h : ofMarker? name = some kind) : name = kind.marker := by
  unfold ofMarker? at h
  have hfound := List.find?_some h
  exact (beq_iff_eq.1 hfound).symm

theorem Declarator.pathDeclaration?_eq_some_iff {d : Declarator} {p : PathDeclaration} :
    d.pathDeclaration? = some p ↔ d.name.name = p.name ∧
      d.initializer = some (.literal p.value p.span) ∧
      ∃ t, d.annotation = some t ∧ t.declaredName = some p.kind.marker := by
  obtain ⟨name, ascription, initializer⟩ := d
  obtain ⟨kind, pname, value, span⟩ := p
  constructor
  · intro h
    match initializer, h with
    | some (.literal value span), h =>
      simp only [pathDeclaration?, Option.bind_eq_bind, Option.bind_eq_some_iff, Option.pure_def,
        Option.some.injEq, PathDeclaration.mk.injEq] at h
      obtain ⟨t, ht, typeName, hname, _, hkind, rfl, rfl, rfl, rfl⟩ := h
      exact ⟨rfl, rfl, t, ht, hname.trans (congrArg some (PathKind.marker_of_ofMarker? hkind))⟩
  · dsimp only
    intro h
    obtain ⟨rfl, rfl, t, rfl, hname⟩ := h
    simp [pathDeclaration?, hname]

namespace Parser

theorem equals_of_assignment {e : Initializer} (h : (assignment ts).1 = some e) :
    ∃ span r, ts = ⟨.punctuation .equals, span⟩ :: r ∧ (initializer r).1 = e := by
  fun_cases assignment ts with
  | case1 span r e' n he =>
    refine ⟨span, r, rfl, ?_⟩
    simpa [assignment] using h
  | case2 => simp_all [assignment]

theorem declarator_colon (x : String) (s s' : Text.Span) (r : List PlacedToken) :
    ∃ n, declarator (⟨.identifier x, s⟩ :: ⟨.punctuation .colon, s'⟩ :: r) =
      some (⟨⟨x, s⟩, (ascription (⟨.punctuation .colon, s'⟩ :: r)).1,
        (assignment ((⟨.punctuation .colon, s'⟩ :: r).drop
          (ascription (⟨.punctuation .colon, s'⟩ :: r)).2)).1⟩, n) :=
  ⟨_, rfl⟩

def assigned (v : String) (s₁ s₂ s₃ : Text.Span) : List PlacedToken :=
  [⟨.punctuation .equals, s₁⟩, ⟨.string v, s₂⟩, ⟨.punctuation .semicolon, s₃⟩]

variable {v x value : String} {s s' s₁ s₂ s₃ span : Text.Span} {d : Declarator}

theorem eq_length_of_equals (hequals : .punctuation .equals ∉ ts.map PlacedToken.token)
    (hle : n ≤ (ts ++ assigned v s₁ s₂ s₃).length)
    (hd : (ts ++ assigned v s₁ s₂ s₃).drop n = ⟨.punctuation .equals, s⟩ :: r) : n = ts.length := by
  have htokens : ts.map PlacedToken.token ++ .punctuation .equals ::
      [.string v, .punctuation .semicolon] =
        taken (ts ++ assigned v s₁ s₂ s₃) n ++ .punctuation .equals :: r.map PlacedToken.token := by
    have hsplit := congrArg (List.map PlacedToken.token)
      (List.take_append_drop n (ts ++ assigned v s₁ s₂ s₃))
    rw [hd, List.map_append, List.map_append] at hsplit
    exact hsplit.symm
  obtain ⟨hsame, -⟩ := (List.append_cons_inj_of_notMem hequals (by simp)).1 htokens
  have hlength := congrArg List.length hsame
  rw [taken, List.length_map, List.length_map, List.length_take_of_le hle] at hlength
  exact hlength.symm

/-- A declarator with an annotation and then a literal, and no equals sign but the one between them, has
both exactly when the annotation is read as a whole. -/
theorem literal_iff (hequals : .punctuation .equals ∉ ts.map PlacedToken.token)
    (hd : declarator (⟨.identifier x, s⟩ :: ⟨.punctuation .colon, s'⟩ ::
      (ts ++ assigned v s₁ s₂ s₃)) = some (d, n)) :
    d.initializer = some (.literal value span) ∧ d.annotation = some t ↔
      typeExpr (ts ++ assigned v s₁ s₂ s₃) = some (t, ts.length) ∧ value = v ∧ span = s₂ := by
  obtain ⟨m, hm⟩ := declarator_colon x s s' (ts ++ assigned v s₁ s₂ s₃)
  rw [hd] at hm
  obtain ⟨rfl, rfl⟩ := Prod.mk.inj (Option.some.inj hm)
  have hassigned : (assignment (assigned v s₁ s₂ s₃)).1 = some (.literal v s₂) := rfl
  cases hread : typeExpr (ts ++ assigned v s₁ s₂ s₃) with
  | none => simp [ascription, hread]
  | some un =>
    obtain ⟨u, k⟩ := un
    simp only [ascription, hread, List.drop_succ_cons]
    constructor
    · intro h
      obtain ⟨hinit, hann⟩ := h
      obtain ⟨span', r, hdrop, -⟩ := equals_of_assignment hinit
      have hk := eq_length_of_equals hequals (covers_typeExpr hread).le hdrop
      rw [hk, List.drop_left, hassigned] at hinit
      cases hinit
      cases hann
      exact ⟨by rw [hk], rfl, rfl⟩
    · intro h
      obtain ⟨hsame, rfl, rfl⟩ := h
      cases hsame
      rw [List.drop_left]
      exact ⟨hassigned, rfl⟩

/-- What is read of an annotation tells the name that it declares. -/
theorem declaredName_iff (hrest : Avoids typeMarks (r.map PlacedToken.token)) :
    (∃ t, typeExpr (ts ++ r) = some (t, ts.length) ∧ t.declaredName = name) ↔
      Declares name (ts.map PlacedToken.token) := by
  constructor
  · intro h
    obtain ⟨t, hread, rfl⟩ := h
    have hdeclares := declares_of_typeExpr hread
    rwa [taken, List.take_left] at hdeclares
  · intro h
    obtain ⟨t, hread, hname⟩ := typeExpr_of_declares h List.map_append hrest
    exact ⟨t, by rw [hread, List.length_map], hname⟩

theorem mem_pathDeclarations_iff {word : Keyword} {s₀ : Text.Span} {p : PathDeclaration}
    (hequals : .punctuation .equals ∉ ts.map PlacedToken.token)
    (hname : .identifier x ∉ ts.map PlacedToken.token) :
    p ∈ (⟨topLevel (⟨.keyword word, s₀⟩ :: ⟨.identifier x, s⟩ :: ⟨.punctuation .colon, s'⟩ ::
        (ts ++ assigned v s₁ s₂ s₃))⟩ : Module).pathDeclarations ∧ p.name = x ↔
      p = ⟨p.kind, x, v, s₂⟩ ∧ Declares (some p.kind.marker) (ts.map PlacedToken.token) := by
  obtain ⟨d, n, hd, hx⟩ : ∃ d n, declarator (⟨.identifier x, s⟩ :: ⟨.punctuation .colon, s'⟩ ::
      (ts ++ assigned v s₁ s₂ s₃)) = some (d, n) ∧ d.name.name = x := ⟨_, _, rfl, rfl⟩
  obtain ⟨more, hall, hmore⟩ := declaratorsIn_statement word s₀ hd
  have hrest : Avoids typeMarks ((assigned v s₁ s₂ s₃).map PlacedToken.token) :=
    avoids_cons.2 (by decide)
  have hread : (∃ t, typeExpr (ts ++ assigned v s₁ s₂ s₃) = some (t, ts.length) ∧
      t.declaredName = some p.kind.marker) ↔ _ := declaredName_iff hrest
  rw [← hread]
  constructor
  · intro h
    obtain ⟨hp, hpx⟩ := h
    obtain ⟨e, he, hep⟩ := List.mem_filterMap.1 hp
    obtain ⟨hnames, hinit, t, ht, hdeclared⟩ := Declarator.pathDeclaration?_eq_some_iff.1 hep
    change e ∈ declaratorsIn _ at he
    rw [hall] at he
    rcases List.mem_cons.1 he with rfl | he
    · obtain ⟨htype, hvalue, hspan⟩ := (literal_iff hequals hd).1 ⟨hinit, ht⟩
      refine ⟨?_, t, htype, hdeclared⟩
      rw [← hpx, ← hvalue, ← hspan]
    · -- any other declarator has its name among the tokens that follow
      have hmem := hmore e he
      rw [hnames, hpx] at hmem
      simp [hname, assigned] at hmem
  · intro h
    obtain ⟨hp, t, htype, hdeclared⟩ := h
    obtain ⟨hinit, ht⟩ := (literal_iff hequals hd).2 ⟨htype, rfl, rfl⟩
    have hpx : p.name = x := by rw [hp]
    refine ⟨List.mem_filterMap.2 ⟨d, ?_, ?_⟩, hpx⟩
    · change d ∈ declaratorsIn _
      rw [hall]
      exact List.mem_cons_self
    · rw [hp]
      exact Declarator.pathDeclaration?_eq_some_iff.2 ⟨hx, hinit, t, ht, hdeclared⟩

end Parser

theorem Declares.yields {name : Option String} {w : List Token} (h : Declares name w) :
    Yields .type w := by
  induction h with
  | name q hlead hargs => exact .type hlead (.single (.plain (.reference q hargs)))
  | parenthesized hlead _ ih => exact .type hlead (.single (.plain (.parenthesized ih)))
  | literal value hlead => exact .type hlead (.single (.plain (.literal value)))
  | array hlead hw => exact .type hlead (.single (.array hw))
  | union hlead hw hu => exact .type hlead (.several hw hu)

/-- An annotation declares one name, or none. -/
theorem Declares.unique {a b : Option String} {w : List Token} (h : Declares a w)
    (h' : Declares b w) : a = b := by
  let ts : List PlacedToken := w.map fun t => ⟨t, default⟩
  have hts : ts.map PlacedToken.token = w ++ [] := by simp [ts, Function.comp_def]
  obtain ⟨t, hread, rfl⟩ := typeExpr_of_declares h hts (by simp [Avoids])
  obtain ⟨u, hread', rfl⟩ := typeExpr_of_declares h' hts (by simp [Avoids])
  rw [hread] at hread'
  cases hread'
  rfl

/-- A variable with an annotation and a string literal is a path declaration exactly when the annotation
declares the name of a marker: a dotted name that ends in it, with arguments or without, after a pipe
or in parentheses at will. An annotation that is no type, or that declares no name or another one,
makes it none. -/
theorem pathDeclaration_iff (x v : String) (t : List Token) (ts : List PlacedToken)
    (hequals : .punctuation .equals ∉ t) (hname : .identifier x ∉ t)
    (hts : ts.map PlacedToken.token = [.keyword .const, .identifier x, .punctuation .colon] ++ t ++
      [.punctuation .equals, .string v, .punctuation .semicolon]) :
    let declarations := (⟨topLevel ts⟩ : Module).pathDeclarations
    (∀ kind, (∃ d ∈ declarations, d.name = x ∧ d.value = v ∧ d.kind = kind) ↔
      Declares (some kind.marker) t) ∧
    ((¬Yields .type t ∨ ∃ name, Declares name t ∧ ∀ kind : PathKind, name ≠ some kind.marker) →
      ∀ d ∈ declarations, d.name ≠ x) := by
  simp only [List.cons_append, List.nil_append] at hts
  obtain ⟨s₀, _, rfl, hrest⟩ := exists_of_map_eq_cons hts
  obtain ⟨s, _, rfl, hcolon⟩ := exists_of_map_eq_cons hrest
  obtain ⟨s', _, rfl, htype⟩ := exists_of_map_eq_cons hcolon
  obtain ⟨ts, _, rfl, rfl, hassign⟩ := List.map_eq_append_iff.1 htype
  obtain ⟨s₁, _, rfl, hliteral⟩ := exists_of_map_eq_cons hassign
  obtain ⟨s₂, _, rfl, hsemicolon⟩ := exists_of_map_eq_cons hliteral
  obtain ⟨s₃, _, rfl, hend⟩ := exists_of_map_eq_cons hsemicolon
  obtain rfl := List.map_eq_nil_iff.1 hend
  intro declarations
  have hmem (p : PathDeclaration) : p ∈ declarations ∧ p.name = x ↔
      p = ⟨p.kind, x, v, s₂⟩ ∧ Declares (some p.kind.marker) (ts.map PlacedToken.token) :=
    mem_pathDeclarations_iff hequals hname
  refine ⟨fun kind => ⟨?_, ?_⟩, ?_⟩
  · intro h
    obtain ⟨p, hp, hx, -, rfl⟩ := h
    exact ((hmem p).1 ⟨hp, hx⟩).2
  · intro h
    obtain ⟨hp, hx⟩ := (hmem ⟨kind, x, v, s₂⟩).2 ⟨rfl, h⟩
    exact ⟨_, hp, rfl, rfl, rfl⟩
  · intro hother p hp hx
    obtain ⟨-, hdeclares⟩ := (hmem p).1 ⟨hp, hx⟩
    rcases hother with hnone | ⟨name, hname, hmarker⟩
    · exact hnone hdeclares.yields
    · exact hmarker p.kind (hname.unique hdeclares)

/-- The tokens of `|(| ns.FilePathStr<A[] | "b", C<>,>)`. -/
def nestedMarker : List Token :=
  [.punctuation .pipe, .punctuation .openParen, .punctuation .pipe, .identifier "ns",
    .punctuation .dot, .identifier "FilePathStr", .punctuation .less, .identifier "A",
    .punctuation .openBracket, .punctuation .closeBracket, .punctuation .pipe, .string "b",
    .punctuation .comma, .identifier "C", .punctuation .less, .punctuation .greater,
    .punctuation .comma, .punctuation .greater, .punctuation .closeParen]

/-- A qualified marker in parentheses, behind pipes and with arguments, is seen. -/
theorem pathDeclaration_nested :
    let source := "const p: |(| ns.FilePathStr<A[] | \"b\", C<>,>) = \"gone\";"
    .punctuation .equals ∉ nestedMarker ∧ .identifier "p" ∉ nestedMarker ∧
      ∃ d ∈ (Parsed.ofText source).outline.pathDeclarations,
        d.name = "p" ∧ d.value = "gone" ∧ d.kind = .file := by
  intro source
  have hequals : .punctuation .equals ∉ nestedMarker := by decide
  have hname : .identifier "p" ∉ nestedMarker := by decide
  have hunion : Yields .type ([] ++ _) := .type (.inl rfl)
    (.several (.array (.plain (.reference ⟨[], ⟨"A", default⟩⟩ .absent)))
      (.single (.plain (.literal "b"))))
  have hempty : Yields .type ([] ++ _) := .type (.inl rfl)
    (.single (.plain (.reference ⟨[], ⟨"C", default⟩⟩ (.arguments .empty))))
  have hmarker : Declares (some PathKind.file.marker) ([.punctuation .pipe] ++ _) :=
    .parenthesized (.inr rfl) (.name ⟨[⟨"ns", default⟩], ⟨"FilePathStr", default⟩⟩ (.inr rfl)
      (.arguments (.item hunion (.item hempty .empty))))
  have htokens : (Scan.ofText source).tokens.map PlacedToken.token =
      [.keyword .const, .identifier "p", .punctuation .colon] ++ nestedMarker ++
        [.punctuation .equals, .string "gone", .punctuation .semicolon] := by decide +kernel
  exact ⟨hequals, hname,
    ((pathDeclaration_iff "p" "gone" nestedMarker _ hequals hname htokens).1 .file).2 hmarker⟩

end PathAudit
