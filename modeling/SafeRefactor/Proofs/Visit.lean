import SafeRefactor.Proofs.Grammar
import SafeRefactor.Scope.Event

/-!
# The visit of a tree

The pass that lists the scope events of a module goes from each node to its
children.  `Spot.toChild` says at which place a child is visited, `Event.own` which
events a node contributes by itself.  `mem_ofModule_iff` joins the two: the events of
a module are exactly what the nodes reached from its root contribute.
-/

namespace SafeRefactor

/-- Where a node is visited and, for a clause of a comprehension, where its iterable is. -/
structure Spot where
  place : Place
  iterables : Place

namespace Spot

def of (place : Place) : Spot :=
  ⟨place, place⟩

/-- The spot of the child with a given role and number of a node that is visited at a spot. -/
def step (spot : Spot) (parent : Node) (role : Role) (child : NodeId) : Spot :=
  match parent.form, role with
  | .module, _ =>
      of { scope := parent.id, outer := [], frame := parent.id, parent := some parent }
  | .functionDef .., .body | .classDef _, .body | .lambda, .result => of (spot.place.enter parent)
  | .comprehension _, .clause =>
      if (parent.field .clause).head?.map Node.id = some child then
        ⟨spot.place.enterComprehension parent, spot.place.inside parent⟩
      else of (spot.place.enterComprehension parent)
  | .comprehension _, _ => of (spot.place.enterComprehension parent)
  | .namedExpr, .target => of { spot.place.inside parent with scope := spot.place.frame }
  | .parameters _, role => if role.isParameter then spot else of (spot.place.inside parent)
  | .clause _, .iterable => of (spot.iterables.inside parent)
  | _, _ => of (spot.place.inside parent)

theorem step_module {spot : Spot} {parent : Node} (form : parent.form = .module) (role : Role)
    (child : NodeId) : spot.step parent role child =
      of { scope := parent.id, outer := [], frame := parent.id, parent := some parent } := by
  simp only [step, form]

/-- The spot of a child of a node that is visited at a spot. -/
def toChild (spot : Spot) (parent child : Node) : Spot :=
  spot.step parent child.role child.id

/-- `Reaches spot node inner below`: the visit of `node` at `spot` comes to `below` at `inner`. -/
inductive Reaches : Spot → Node → Spot → Node → Prop where
  | here (spot : Spot) (node : Node) : Reaches spot node spot node
  | there {spot inner : Spot} {node child lower : Node} :
      child ∈ node.children → Reaches (spot.toChild node child) child inner lower →
      Reaches spot node inner lower

end Spot

namespace Event

/-- The events that a node contributes by itself when it is visited at a place. -/
def own (place : Place) (node : Node) : List Event :=
  match node.form with
  | .module => [.opens node .module "<module>" [], .places node.id node.id]
  | .functionDef _ name _ =>
      .places node.id place.scope :: .binds place.scope name ⟨node, place.parent⟩ ::
        .opens node .function name place.chain :: ofParameters node
  | .lambda =>
      .places node.id place.scope :: .opens node .lambda "<lambda>" place.chain ::
        ofParameters node
  | .classDef name =>
      [.places node.id place.scope, .binds place.scope name ⟨node, place.parent⟩,
       .opens node .classBody name place.chain]
  | .comprehension kind =>
      [.places node.id place.scope, .opens node .comprehension kind.scopeName place.chain]
  | .name id context =>
      if context = .load then [.places node.id place.scope]
      else [.places node.id place.scope, .binds place.scope id ⟨node, place.parent⟩]
  | .globalStmt names => [.places node.id place.scope, .declaresGlobal place.scope names]
  | .nonlocalStmt names => [.places node.id place.scope, .declaresNonlocal place.scope names]
  | .alias name asName =>
      if name = "*" then [.places node.id place.scope]
      else [.places node.id place.scope,
            .binds place.scope (importedName name asName) ⟨node, place.parent⟩]
  | _ => .places node.id place.scope :: ofCapture place node

private theorem ofNode_name (place : Place) (id : String) (context : Context) (info : Info)
    (children : List Node) :
    ofNode place (.mk (.name id context) info children) =
      own place (.mk (.name id context) info children) := by
  by_cases load : context = .load
  · simp [ofNode, own, load]
  · simp [ofNode, own, load]

/-- The event is contributed by a node that the visit of a node comes to. -/
def Arises (spot : Spot) (node : Node) (event : Event) : Prop :=
  ∃ inner lower, spot.Reaches node inner lower ∧ event ∈ own inner.place lower

theorem arises_iff {spot : Spot} {node : Node} {event : Event} :
    Arises spot node event ↔
      event ∈ own spot.place node ∨
        ∃ child ∈ node.children, Arises (spot.toChild node child) child event := by
  constructor
  · rintro ⟨inner, lower, reached, member⟩
    cases reached with
    | here => exact Or.inl member
    | there isChild further => exact Or.inr ⟨_, isChild, inner, lower, further, member⟩
  · rintro (member | ⟨child, isChild, inner, lower, reached, member⟩)
    · exact ⟨spot, node, .here spot node, member⟩
    · exact ⟨inner, lower, .there isChild reached, member⟩

theorem mem_ofAll {place : Place} {nodes : List Node} {event : Event} :
    event ∈ ofAll place nodes ↔ ∃ node ∈ nodes, event ∈ ofNode place node := by
  induction nodes with
  | nil => simp [ofAll]
  | cons node rest induction => simp [ofAll, induction]

theorem mem_ofRole {role : Role} {place : Place} {nodes : List Node} {event : Event} :
    event ∈ ofRole role place nodes ↔
      ∃ node ∈ nodes, node.role = role ∧ event ∈ ofNode place node := by
  induction nodes with
  | nil => simp [ofRole]
  | cons node rest induction =>
      by_cases same : node.role = role
      · simp [ofRole, same, induction]
      · simp [ofRole, same, induction]

private theorem mem_ofHints {place : Place} {nodes : List Node} {event : Event} :
    event ∈ ofHints place nodes ↔
      ∃ node ∈ nodes, node.role.isParameter = true ∧
        (event = .places node.id place.scope ∨
          ∃ hint ∈ node.children, hint.role = .typeHint ∧
            event ∈ ofNode (place.inside node) hint) := by
  induction nodes with
  | nil => simp [ofHints]
  | cons node rest induction =>
      obtain ⟨form, info, children⟩ := node
      by_cases parameter : info.role.isParameter = true
      · simp [ofHints, parameter, induction, mem_ofRole, or_assoc]
      · simp [ofHints, parameter, induction]

theorem mem_ofParameterLists {place : Place} {nodes : List Node} {event : Event} :
    event ∈ ofParameterLists place nodes ↔
      ∃ node ∈ nodes, node.role = .parameters ∧
        (event = .places node.id place.scope ∨
          (∃ part ∈ node.children, (part.role = .default ∨ part.role = .keywordDefault) ∧
            event ∈ ofNode (place.inside node) part) ∨
          event ∈ ofHints place node.children) := by
  induction nodes with
  | nil => simp [ofParameterLists]
  | cons node rest induction =>
      obtain ⟨form, info, children⟩ := node
      by_cases parameters : info.role = .parameters
      · rw [ofParameterLists, if_pos parameters]
        simp only [List.mem_cons, List.mem_append, induction, mem_ofRole]
        constructor
        · rintro (placed | ((⟨part, member, role, inside⟩ | ⟨part, member, role, inside⟩) | hints) |
            ⟨node, member, further⟩)
          · exact ⟨_, Or.inl rfl, parameters, Or.inl placed⟩
          · exact ⟨_, Or.inl rfl, parameters,
              Or.inr (Or.inl ⟨part, member, Or.inl role, inside⟩)⟩
          · exact ⟨_, Or.inl rfl, parameters,
              Or.inr (Or.inl ⟨part, member, Or.inr role, inside⟩)⟩
          · exact ⟨_, Or.inl rfl, parameters, Or.inr (Or.inr hints)⟩
          · exact ⟨node, Or.inr member, further⟩
        · rintro ⟨node, rfl | member, role, found⟩
          · rcases found with placed | ⟨part, member, role | role, inside⟩ | hints
            · exact Or.inl placed
            · exact Or.inr (Or.inl (Or.inl (Or.inl ⟨part, member, role, inside⟩)))
            · exact Or.inr (Or.inl (Or.inl (Or.inr ⟨part, member, role, inside⟩)))
            · exact Or.inr (Or.inl (Or.inr hints))
          · exact Or.inr (Or.inr ⟨node, member, role, found⟩)
      · simp [ofParameterLists, parameters, induction]

private theorem mem_ofFirstIterable {place : Place} {nodes : List Node} {event : Event} :
    event ∈ ofFirstIterable place nodes ↔
      ∃ clause, (nodes.filter (fun node => node.role = .clause)).head? = some clause ∧
        ∃ part ∈ clause.children, part.role = .iterable ∧
          event ∈ ofNode (place.inside clause) part := by
  induction nodes with
  | nil => simp [ofFirstIterable]
  | cons node rest induction =>
      obtain ⟨form, info, parts⟩ := node
      by_cases clause : info.role = .clause
      · simp [ofFirstIterable, clause, mem_ofRole]
      · simp [ofFirstIterable, clause, induction]

/-- The clauses whose iterables are visited inside the comprehension: all but the first. -/
def laterClauses (first : Bool) (nodes : List Node) : List Node :=
  let clauses := nodes.filter (fun node => node.role = .clause)
  if first then clauses.tail else clauses

private theorem mem_ofClauses {place : Place} {first : Bool} {nodes : List Node} {event : Event} :
    event ∈ ofClauses place first nodes ↔
      (∃ clause ∈ nodes, clause.role = .clause ∧
        (event = .places clause.id place.scope ∨
          ∃ part ∈ clause.children, (part.role = .target ∨ part.role = .condition) ∧
            event ∈ ofNode (place.inside clause) part)) ∨
      ∃ clause ∈ laterClauses first nodes, ∃ part ∈ clause.children, part.role = .iterable ∧
        event ∈ ofNode (place.inside clause) part := by
  induction nodes generalizing first with
  | nil => simp [ofClauses, laterClauses]
  | cons node rest induction =>
      obtain ⟨form, info, parts⟩ := node
      by_cases clause : info.role = .clause
      · have later : laterClauses first (.mk form info parts :: rest) =
            if first then laterClauses false rest
            else .mk form info parts :: laterClauses false rest := by
          cases first <;> simp [laterClauses, clause]
        rw [ofClauses, if_pos clause, later]
        simp only [List.mem_cons, List.mem_append, induction, mem_ofRole]
        constructor
        · rintro (placed | ((early | ⟨part, member, role, inside⟩) | ⟨part, member, role, inside⟩) |
            ⟨node, member, found⟩ | ⟨node, member, found⟩)
          · exact Or.inl ⟨_, Or.inl rfl, clause, Or.inl placed⟩
          · cases first with
            | true => cases early
            | false =>
                obtain ⟨part, member, role, inside⟩ := mem_ofRole.mp early
                exact Or.inr ⟨_, List.mem_cons_self, part, member, role, inside⟩
          · exact Or.inl ⟨_, Or.inl rfl, clause, Or.inr ⟨part, member, Or.inl role, inside⟩⟩
          · exact Or.inl ⟨_, Or.inl rfl, clause, Or.inr ⟨part, member, Or.inr role, inside⟩⟩
          · exact Or.inl ⟨node, Or.inr member, found⟩
          · refine Or.inr ⟨node, ?_, found⟩
            cases first with
            | true => exact member
            | false => exact List.mem_cons_of_mem _ member
        · rintro (⟨node, rfl | member, role, found⟩ | ⟨node, member, found⟩)
          · rcases found with placed | ⟨part, member, role | role, inside⟩
            · exact Or.inl placed
            · exact Or.inr (Or.inl (Or.inl (Or.inr ⟨part, member, role, inside⟩)))
            · exact Or.inr (Or.inl (Or.inr ⟨part, member, role, inside⟩))
          · exact Or.inr (Or.inr (Or.inl ⟨node, member, role, found⟩))
          · cases first with
            | true => exact Or.inr (Or.inr (Or.inr ⟨node, member, found⟩))
            | false =>
                rcases List.mem_cons.mp member with rfl | member
                · exact Or.inr (Or.inl (Or.inl (Or.inl (mem_ofRole.mpr found))))
                · exact Or.inr (Or.inr (Or.inr ⟨node, member, found⟩))
      · have later : laterClauses first (.mk form info parts :: rest) =
            laterClauses first rest := by
          simp [laterClauses, clause]
        rw [ofClauses, if_neg clause, later, induction]
        simp [clause]

/-- The events of a node of a given sort and of everything in it.  Parameter lists, parameters,
clauses and imported names are visited by the construct around them. -/
def Heard (slot : Slot) (spot : Spot) (node : Node) (event : Event) : Prop :=
  match slot with
  | .parameterList =>
      event = .places node.id spot.place.scope ∨
        (∃ part ∈ node.children, (part.role = .default ∨ part.role = .keywordDefault) ∧
          event ∈ ofNode (spot.place.inside node) part) ∨
        event ∈ ofHints spot.place node.children
  | .parameter =>
      event = .places node.id spot.place.scope ∨
        ∃ hint ∈ node.children, hint.role = .typeHint ∧
          event ∈ ofNode (spot.place.inside node) hint
  | .clause =>
      event = .places node.id spot.place.scope ∨
        (∃ part ∈ node.children, (part.role = .target ∨ part.role = .condition) ∧
          event ∈ ofNode (spot.place.inside node) part) ∨
        ∃ part ∈ node.children, part.role = .iterable ∧
          event ∈ ofNode (spot.iterables.inside node) part
  | .imported => event ∈ own spot.place node
  | _ => event ∈ ofNode spot.place node

/-- The event comes from a child that plays the given role. -/
def HeardAs (spot : Spot) (node : Node) (role : Role) (slot : Slot) (event : Event) : Prop :=
  ∃ child ∈ node.children, child.role = role ∧
    Heard slot (spot.step node role child.id) child event

def HeardBelow (spot : Spot) (node : Node) (event : Event) : Prop :=
  ∃ entry ∈ node.form.slots, HeardAs spot node entry.1 entry.2 event

/-- Whether constructs of the sort are visited by the general rule. -/
def isPlain : Slot → Bool
  | .parameterList | .parameter | .clause | .imported => false
  | _ => true

theorem isPlain_slot (context : Context) : isPlain context.slot = true := by
  cases context <;> rfl

/-- Whether a construct is visited only by the construct around it. -/
def isSpecial : Form → Bool
  | .module | .clause _ | .parameters _ | .parameter _ _ | .alias _ _ => true
  | _ => false

theorem isSpecial_of_isPlain {slot : Slot} {form : Form} (plain : isPlain slot = true)
    (admitted : slot.admits form = true) : isSpecial form = false := by
  cases form
  all_goals first
    | rfl
    | cases slot
      all_goals first
        | exact absurd plain (by decide)
        | cases admitted

theorem heard_of_isPlain {slot : Slot} (plain : isPlain slot = true) {spot : Spot} {node : Node}
    {event : Event} : Heard slot spot node event ↔ event ∈ ofNode spot.place node := by
  cases slot with
  | parameterList | parameter | clause | imported => cases plain
  | _ => rfl

/-- The children that play a role are visited as its slot asks. -/
theorem mem_ofRole_iff {spot : Spot} {form : Form} {info : Info} {children : List Node}
    {role : Role} {slot : Slot} {place : Place} {event : Event} (plain : isPlain slot = true)
    (same : ∀ id, spot.step (.mk form info children) role id = Spot.of place) :
    event ∈ ofRole role place children ↔
      HeardAs spot (.mk form info children) role slot event := by
  simp only [mem_ofRole, HeardAs, heard_of_isPlain plain, same, Spot.of, Node.children_mk]

theorem mem_ofParameterLists_iff {spot : Spot} {form : Form} {info : Info} {children : List Node}
    {place : Place} {event : Event}
    (same : ∀ id, spot.step (.mk form info children) .parameters id = Spot.of place) :
    event ∈ ofParameterLists place children ↔
      HeardAs spot (.mk form info children) .parameters .parameterList event := by
  simp only [mem_ofParameterLists, HeardAs, same, Heard, Spot.of, Node.children_mk]

section

variable {spot : Spot} {info : Info} {children : List Node} {event : Event}

/-- The events of the children of a node that stand in a slot and are visited at a place. -/
def ofEntry (place : Place) (children : List Node) (entry : Role × Slot) : List Event :=
  if entry.2 = .parameterList then ofParameterLists place children
  else ofRole entry.1 place children

theorem ofEntry_of_isPlain {entry : Role × Slot} (plain : isPlain entry.2 = true) (place : Place)
    (children : List Node) : ofEntry place children entry = ofRole entry.1 place children := by
  apply if_neg
  intro same
  rw [same] at plain
  cases plain

/-- A construct whose parts are visited role by role, each at a place of its own, is visited with
what its slots list. -/
theorem heard_of_entries {node : Node} (place : Role → Place)
    (visited : event ∈ ofNode spot.place node ↔ event ∈ own spot.place node ∨
      ∃ entry ∈ node.form.slots, event ∈ ofEntry (place entry.1) node.children entry)
    (same : ∀ entry ∈ node.form.slots, ∀ id,
      spot.step node entry.1 id = Spot.of (place entry.1))
    (sorts : ∀ entry ∈ node.form.slots,
      isPlain entry.2 = true ∨ entry = (.parameters, .parameterList)) :
    event ∈ ofNode spot.place node ↔
      event ∈ own spot.place node ∨ HeardBelow spot node event := by
  rw [visited, HeardBelow]
  apply or_congr_right
  apply exists_congr
  intro entry
  apply and_congr_right
  intro listed
  obtain ⟨form, info, children⟩ := node
  rcases sorts entry listed with plain | rfl
  · rw [ofEntry_of_isPlain plain]
    exact mem_ofRole_iff plain (same entry listed)
  · exact mem_ofParameterLists_iff (same _ listed)

/-- Whether a construct opens a scope for its body, the other parts being visited around it. -/
def opensBody : Form → Bool
  | .functionDef .. | .lambda | .classDef _ => true
  | _ => false

/-- Where the parts of such a construct that play a role are visited. -/
def placeOfPart (place : Place) (node : Node) (role : Role) : Place :=
  if role = .body ∨ role = .result then place.enter node else place.inside node

private theorem step_of_opensBody {node : Node} (opens : opensBody node.form = true)
    {entry : Role × Slot} (listed : entry ∈ node.form.slots) (id : NodeId) :
    spot.step node entry.1 id = Spot.of (placeOfPart spot.place node entry.1) := by
  obtain ⟨form, info, children⟩ := node
  cases form with
  | functionDef | lambda | classDef =>
      revert entry
      simp [Form.slots, Spot.step, placeOfPart]
  | _ => cases opens

theorem sort_of_opensBody {form : Form} (opens : opensBody form = true)
    {entry : Role × Slot}
    (listed : entry ∈ form.slots) :
    isPlain entry.2 = true ∨ entry = (.parameters, .parameterList) := by
  cases form with
  | functionDef | lambda | classDef =>
      revert entry
      simp [Form.slots, isPlain]
  | _ => cases opens

theorem heard_of_opensBody {node : Node} (opens : opensBody node.form = true) :
    event ∈ ofNode spot.place node ↔
      event ∈ own spot.place node ∨ HeardBelow spot node event := by
  refine heard_of_entries (placeOfPart spot.place node) ?_
    (fun _ => step_of_opensBody opens) (fun _ => sort_of_opensBody opens)
  obtain ⟨form, info, children⟩ := node
  cases form with
  | functionDef | lambda | classDef =>
      simp only [ofNode, own, ofEntry, placeOfPart, Form.slots, Node.form_mk, Node.id_mk,
        Node.children_mk, List.mem_cons, List.mem_append, List.not_mem_nil, or_false,
        exists_eq_or_imp, exists_eq_left]
      grind
  | _ => cases opens

private theorem later_clause_ne {node first clause : Node} (distinct : node.Distinct)
    {rest : List Node}
    (clauses : node.field .clause = first :: rest) (member : clause ∈ rest) :
    first.id ≠ clause.id := by
  have nodup : (node.field .clause).Nodup := by
    have listed : List.Sublist node.children node.nodes := by
      obtain ⟨form, info, children⟩ := node
      exact (Node.children_sublist children).trans (List.sublist_cons_self _ _)
    exact (List.filter_sublist.trans listed).nodup distinct.nodup_nodes
  intro same
  have inside : ∀ other ∈ first :: rest, other ∈ node.nodes := by
    intro other isClause
    rw [← clauses] at isClause
    exact Node.child_mem_nodes (Node.mem_field.mp isClause).1
  have equal : first = clause :=
    distinct.eq_of_id (inside first List.mem_cons_self)
      (inside clause (List.mem_cons_of_mem _ member)) same
  rw [clauses, equal] at nodup
  exact (List.nodup_cons.mp nodup).1 member

theorem place_of_clause {node : Node} {kind : ComprehensionKind}
    (form : node.form = .comprehension kind) (id : NodeId) :
    (spot.step node .clause id).place = spot.place.enterComprehension node := by
  simp only [Spot.step, form]
  split <;> rfl

theorem iterables_of_first {node first : Node} {rest : List Node} {kind : ComprehensionKind}
    (form : node.form = .comprehension kind) (clauses : node.field .clause = first :: rest) :
    (spot.step node .clause first.id).iterables = spot.place.inside node := by
  simp [Spot.step, form, clauses]

theorem iterables_of_later {node first clause : Node} {rest : List Node} {kind : ComprehensionKind}
    (distinct : node.Distinct) (form : node.form = .comprehension kind)
    (clauses : node.field .clause = first :: rest) (member : clause ∈ rest) :
    (spot.step node .clause clause.id).iterables = spot.place.enterComprehension node := by
  simp [Spot.step, form, clauses, later_clause_ne distinct clauses member, Spot.of]

/-- The clauses of a comprehension are visited inside it, all but the iterable of the first. -/
theorem mem_clauses {node : Node} {kind : ComprehensionKind} {event : Event}
    (distinct : node.Distinct) (form : node.form = .comprehension kind) :
    event ∈ ofFirstIterable (spot.place.inside node) node.children ∨
        event ∈ ofClauses (spot.place.enterComprehension node) true node.children ↔
      HeardAs spot node .clause .clause event := by
  have clauses : node.children.filter (fun child => child.role = .clause) = node.field .clause :=
    rfl
  simp only [mem_ofFirstIterable, mem_ofClauses, laterClauses, HeardAs, Heard,
    place_of_clause form, clauses, if_true]
  have listed : ∀ clause, clause ∈ node.field .clause ↔
      clause ∈ node.children ∧ clause.role = .clause := fun clause => Node.mem_field
  cases all : node.field .clause with
  | nil =>
      rw [all] at listed
      have none : ∀ clause ∈ node.children, clause.role ≠ .clause := by
        intro clause member role
        cases (listed clause).mpr ⟨member, role⟩
      constructor
      · rintro (⟨clause, first, _⟩ | ⟨clause, member, role, _⟩ | ⟨clause, member, _⟩)
        · cases first
        · exact absurd role (none clause member)
        · cases member
      · rintro ⟨clause, member, role, _⟩
        exact absurd role (none clause member)
  | cons first rest =>
      rw [all] at listed
      have early : (spot.step node .clause first.id).iterables = spot.place.inside node :=
        iterables_of_first form all
      have late : ∀ clause ∈ rest, (spot.step node .clause clause.id).iterables =
          spot.place.enterComprehension node :=
        fun clause => iterables_of_later distinct form all
      constructor
      · rintro (⟨clause, isFirst, part⟩ | ⟨clause, member, role, placed | part⟩ |
          ⟨clause, member, part⟩)
        · obtain rfl : first = clause := by simpa using isFirst
          obtain ⟨member, role⟩ := (listed first).mp List.mem_cons_self
          refine ⟨first, member, role, Or.inr (Or.inr ?_)⟩
          rw [early]
          exact part
        · exact ⟨clause, member, role, Or.inl placed⟩
        · exact ⟨clause, member, role, Or.inr (Or.inl part)⟩
        · have later : clause ∈ rest := by simpa using member
          obtain ⟨isChild, role⟩ := (listed clause).mp (List.mem_cons_of_mem _ later)
          refine ⟨clause, isChild, role, Or.inr (Or.inr ?_)⟩
          rw [late clause later]
          exact part
      · rintro ⟨clause, member, role, placed | part | part⟩
        · exact Or.inr (Or.inl ⟨clause, member, role, Or.inl placed⟩)
        · exact Or.inr (Or.inl ⟨clause, member, role, Or.inr part⟩)
        · rcases List.mem_cons.mp ((listed clause).mpr ⟨member, role⟩) with rfl | later
          · rw [early] at part
            exact Or.inl ⟨clause, rfl, part⟩
          · rw [late clause later] at part
            exact Or.inr (Or.inr ⟨clause, later, part⟩)

theorem heard_comprehension {kind : ComprehensionKind} {node : Node} (distinct : node.Distinct)
    (whole : node = .mk (.comprehension kind) info children) :
    event ∈ ofNode spot.place node ↔
      event ∈ own spot.place node ∨ HeardBelow spot node event := by
  have clauses : event ∈ ofFirstIterable (spot.place.inside node) children ∨
        event ∈ ofClauses (spot.place.enterComprehension node) true children ↔
      HeardAs spot node .clause .clause event := by
    rw [whole] at distinct ⊢
    exact mem_clauses distinct rfl
  have part (role : Role) (inside : ∀ id, spot.step node role id =
      Spot.of (spot.place.enterComprehension node)) :
      event ∈ ofRole role (spot.place.enterComprehension node) children ↔
        HeardAs spot node role .expression event := by
    rw [whole] at inside ⊢
    exact mem_ofRole_iff rfl inside
  rw [whole] at *
  simp only [HeardBelow, ofNode, own, List.mem_cons, List.mem_append, Form.slots, Node.form_mk,
    Node.id_mk, List.not_mem_nil, or_false, exists_eq_or_imp, exists_eq_left, ← clauses,
    part .element (fun _ => rfl), part .key (fun _ => rfl), part .value (fun _ => rfl)]
  grind

theorem mem_ofNamedTarget {node : Node} (form : node.form = .namedExpr)
    (fitting : ∀ child ∈ node.children, child.role = .target → child.fits .nameTarget = true) :
    event ∈ ofNamedTarget spot.place.frame node ↔ HeardAs spot node .target .nameTarget event := by
  have place : ∀ id, spot.step node .target id =
      Spot.of { spot.place.inside node with scope := spot.place.frame } := by
    intro id
    simp only [Spot.step, form]
  have visited : ∀ child ∈ node.children, child.role = .target →
      (event ∈ [Event.places child.id spot.place.frame,
          .binds spot.place.frame (child.identifier?.getD "") ⟨child, some node⟩] ↔
        Heard .nameTarget (spot.step node .target child.id) child event) := by
    intro child member role
    obtain ⟨id, named⟩ := Node.form_of_nameTarget (fitting child member role)
    obtain ⟨_, info, parts⟩ := child
    subst named
    simp [Heard, place, Spot.of, ofNode, Node.identifier?, Place.inside]
  simp only [ofNamedTarget, List.mem_flatMap, Node.mem_field, HeardAs]
  constructor
  · rintro ⟨child, ⟨member, role⟩, found⟩
    exact ⟨child, member, role, (visited child member role).mp found⟩
  · rintro ⟨child, member, role, found⟩
    exact ⟨child, ⟨member, role⟩, (visited child member role).mpr found⟩

theorem heard_namedExpr {node : Node} (whole : node = .mk .namedExpr info children)
    (fitting : ∀ child ∈ children, child.role = .target → child.fits .nameTarget = true) :
    event ∈ ofNode spot.place node ↔
      event ∈ own spot.place node ∨ HeardBelow spot node event := by
  have value : event ∈ ofRole .value (spot.place.inside node) children ↔
      HeardAs spot node .value .expression event := by
    rw [whole]
    exact mem_ofRole_iff rfl (fun _ => rfl)
  have target : event ∈ ofNamedTarget spot.place.frame node ↔
      HeardAs spot node .target .nameTarget event := by
    rw [whole]
    exact mem_ofNamedTarget rfl fitting
  rw [whole] at *
  simp only [HeardBelow, ofNode, own, ofCapture, List.mem_cons, List.mem_append, Form.slots,
    Node.form_mk, Node.id_mk, List.not_mem_nil, or_false, exists_eq_or_imp, exists_eq_left, value,
    target]
  grind

theorem mem_ofImports {node : Node} (same : ∀ id, spot.step node .imported id =
      Spot.of (spot.place.inside node))
    (fitting : ∀ child ∈ node.children, child.role = .imported ∧ child.fits .imported = true) :
    event ∈ ofImports spot.place.scope node ↔ HeardAs spot node .imported .imported event := by
  simp only [ofImports, List.mem_flatMap, HeardAs]
  apply exists_congr
  intro child
  apply and_congr_right
  intro member
  obtain ⟨role, fits⟩ := fitting child member
  obtain ⟨name, asName, named⟩ := Node.form_of_imported fits
  simp only [Heard, own, named, same, Spot.of, Place.inside, role, true_and]

private theorem heard_import {node : Node}
    (visited : ofNode spot.place node =
      .places node.id spot.place.scope :: ofImports spot.place.scope node)
    (alone : own spot.place node = [.places node.id spot.place.scope])
    (listed : node.form.slots = [(.imported, .imported)])
    (same : ∀ id, spot.step node .imported id = Spot.of (spot.place.inside node))
    (fitting : ∀ child ∈ node.children, child.role = .imported ∧ child.fits .imported = true) :
    event ∈ ofNode spot.place node ↔
      event ∈ own spot.place node ∨ HeardBelow spot node event := by
  rw [visited, alone, HeardBelow, listed]
  simp only [List.mem_cons, mem_ofImports same fitting, List.not_mem_nil, or_false, exists_eq_left]

theorem parameter_slot {defaults : List Bool} {role : Role} (parameter : role.isParameter = true) :
    (role, Slot.parameter) ∈ (Form.parameters defaults).slots := by
  cases role
  all_goals first
    | exact absurd parameter (by decide)
    | simp [Form.slots]

theorem heard_parameterList {node : Node} {defaults : List Bool}
    (form : node.form = .parameters defaults) :
    Heard .parameterList spot node event ↔
      event ∈ own spot.place node ∨ HeardBelow spot node event := by
  have hinted : ∀ role, role.isParameter = true → ∀ id, spot.step node role id = spot := by
    intro role parameter id
    simp [Spot.step, form, parameter]
  have default : ∀ role, role.isParameter = false → ∀ id,
      spot.step node role id = Spot.of (spot.place.inside node) := by
    intro role other id
    simp [Spot.step, form, other]
  have whole : Heard .parameterList spot node event ↔
      event = .places node.id spot.place.scope ∨
        (∃ part ∈ node.children, (part.role = .default ∨ part.role = .keywordDefault) ∧
          event ∈ ofNode (spot.place.inside node) part) ∨
        ∃ part ∈ node.children, part.role.isParameter = true ∧
          Heard .parameter spot part event := by
    rw [Heard, mem_ofHints]
    rfl
  rw [whole]
  simp only [HeardBelow, HeardAs, own, ofCapture, form, List.mem_singleton]
  constructor
  · rintro (placed | ⟨part, member, role | role, inside⟩ | ⟨part, member, role, found⟩)
    · exact Or.inl placed
    · refine Or.inr ⟨(.default, .expression), by simp [Form.slots], part, member, role, ?_⟩
      rw [heard_of_isPlain rfl, default _ rfl]
      exact inside
    · refine Or.inr ⟨(.keywordDefault, .expression), by simp [Form.slots], part, member, role, ?_⟩
      rw [heard_of_isPlain rfl, default _ rfl]
      exact inside
    · refine Or.inr ⟨(part.role, .parameter), parameter_slot role, part, member, rfl, ?_⟩
      rw [hinted _ role]
      exact found
  · rintro (placed | ⟨⟨role, slot⟩, listed, part, member, rfl, found⟩)
    · exact Or.inl placed
    · by_cases parameter : part.role.isParameter = true
      · obtain rfl := Form.slot_unique listed (parameter_slot parameter)
        rw [hinted _ parameter] at found
        exact Or.inr (Or.inr ⟨part, member, parameter, found⟩)
      · have kind : (part.role = .default ∨ part.role = .keywordDefault) ∧ slot = .expression := by
          simp only [Form.slots, List.mem_cons, List.not_mem_nil, or_false, Prod.mk.injEq] at listed
          rcases listed with h | h | h | h | h | h | h
          all_goals first
            | exact ⟨Or.inl h.1, h.2⟩
            | exact ⟨Or.inr h.1, h.2⟩
            | exact absurd (by rw [h.1]; rfl) parameter
        obtain ⟨role, rfl⟩ := kind
        rw [heard_of_isPlain rfl, default _ (by simpa using parameter)] at found
        exact Or.inr (Or.inl ⟨part, member, role, found⟩)

theorem heard_parameter {node : Node} {name : String} {hint : Option Printed}
    (form : node.form = .parameter name hint) :
    Heard .parameter spot node event ↔
      event ∈ own spot.place node ∨ HeardBelow spot node event := by
  simp [Heard, HeardBelow, HeardAs, own, ofCapture, form, Form.slots, Spot.step, Spot.of]

theorem heard_clause {node : Node} {isAsync : Bool} (form : node.form = .clause isAsync) :
    Heard .clause spot node event ↔
      event ∈ own spot.place node ∨ HeardBelow spot node event := by
  have around : ∀ role, role ≠ .iterable → ∀ id,
      spot.step node role id = Spot.of (spot.place.inside node) := by
    intro role other id
    cases role
    all_goals first
      | exact absurd rfl other
      | simp only [Spot.step, form]
  have iterable : ∀ id, spot.step node .iterable id = Spot.of (spot.iterables.inside node) := by
    intro id
    simp only [Spot.step, form]
  simp only [Heard, HeardBelow, HeardAs, own, ofCapture, form, Form.slots, List.mem_cons,
    List.not_mem_nil, or_false, exists_eq_or_imp, exists_eq_left, around .target (by decide),
    around .condition (by decide), iterable, Spot.of]
  constructor
  · rintro (placed | ⟨part, member, role | role, found⟩ | late)
    · exact Or.inl placed
    · exact Or.inr (Or.inl ⟨part, member, role, found⟩)
    · exact Or.inr (Or.inr (Or.inr ⟨part, member, role, found⟩))
    · exact Or.inr (Or.inr (Or.inl late))
  · rintro (placed | ⟨part, member, role, found⟩ | late | ⟨part, member, role, found⟩)
    · exact Or.inl placed
    · exact Or.inr (Or.inl ⟨part, member, Or.inl role, found⟩)
    · exact Or.inr (Or.inr late)
    · exact Or.inr (Or.inl ⟨part, member, Or.inr role, found⟩)

theorem heard_imported {node : Node} {name : String} {asName : Option String}
    (form : node.form = .alias name asName) :
    Heard .imported spot node event ↔
      event ∈ own spot.place node ∨ HeardBelow spot node event := by
  simp [Heard, HeardBelow, form, Form.slots]

/-- The general rule: a construct that opens no scope is visited with all its constituents. -/
theorem heard_ordinary {node : Node}
    (visited : ofNode spot.place node = .places node.id spot.place.scope ::
      (ofCapture spot.place node ++ ofAll (spot.place.inside node) node.children))
    (alone : own spot.place node = .places node.id spot.place.scope :: ofCapture spot.place node)
    (same : ∀ role id, spot.step node role id = Spot.of (spot.place.inside node))
    (plain : ∀ entry ∈ node.form.slots, isPlain entry.2 = true)
    (fitting : ∀ child ∈ node.children, ∃ slot, (child.role, slot) ∈ node.form.slots) :
    event ∈ ofNode spot.place node ↔
      event ∈ own spot.place node ∨ HeardBelow spot node event := by
  rw [visited, alone]
  simp only [List.mem_cons, List.mem_append, mem_ofAll, HeardBelow, HeardAs, same]
  constructor
  · rintro (placed | captured | ⟨child, member, found⟩)
    · exact Or.inl (Or.inl placed)
    · exact Or.inl (Or.inr captured)
    · obtain ⟨slot, listed⟩ := fitting child member
      exact Or.inr ⟨_, listed, child, member, rfl, (heard_of_isPlain (plain _ listed)).mpr found⟩
  · rintro ((placed | captured) | ⟨entry, listed, child, member, role, found⟩)
    · exact Or.inl placed
    · exact Or.inr (Or.inl captured)
    · exact Or.inr (Or.inr ⟨child, member, (heard_of_isPlain (plain _ listed)).mp found⟩)

/-- What is heard of a node is what it contributes by itself and what is heard of its children. -/
theorem heard_iff {slot : Slot} {node : Node} (distinct : node.Distinct)
    (fitting : node.fits slot = true) :
    Heard slot spot node event ↔
      event ∈ own spot.place node ∨ HeardBelow spot node event := by
  by_cases plain : isPlain slot = true
  · rw [heard_of_isPlain plain]
    have slots := fun child (member : child ∈ node.children) => Node.slot_of_child fitting member
    have regular := isSpecial_of_isPlain plain (Node.admits_of_fits fitting)
    obtain ⟨form, info, children⟩ := node
    cases form with
    | functionDef | lambda | classDef => exact heard_of_opensBody rfl
    | comprehension kind => exact heard_comprehension distinct rfl
    | namedExpr =>
        apply heard_namedExpr rfl
        intro child member role
        exact Node.fits_of_slot fitting member (by rw [role]; simp [Form.slots])
    | name id context =>
        rw [ofNode_name]
        simp [HeardBelow, Form.slots]
    | globalStmt names | nonlocalStmt names =>
        simp [ofNode, own, HeardBelow, Form.slots]
    | importStmt | importFrom _ _ =>
        have imported :
            ∀ child ∈ children, child.role = .imported ∧ child.fits .imported = true := by
          intro child member
          obtain ⟨inner, listed, fits⟩ := slots child member
          simp only [Form.slots, Node.form_mk, List.mem_singleton, Prod.mk.injEq] at listed
          obtain ⟨role, rfl⟩ := listed
          exact ⟨role, fits⟩
        exact heard_import rfl rfl rfl (fun _ => rfl) imported
    | clause _ | parameters _ | parameter _ _ | module => cases regular
    | starred context | list context | tuple context =>
        apply heard_ordinary rfl rfl (fun _ _ => rfl)
        · simpa [Form.slots] using isPlain_slot context
        · intro child member
          obtain ⟨inner, listed, _⟩ := slots child member
          exact ⟨inner, listed⟩
    | _ =>
        first
          | (apply heard_ordinary rfl rfl (fun _ _ => rfl)
             · simp [Form.slots, isPlain]
             · intro child member
               obtain ⟨inner, listed, _⟩ := slots child member
               exact ⟨inner, listed⟩)
          | cases regular
  · cases slot with
    | parameterList =>
        obtain ⟨defaults, form⟩ := Node.form_of_parameterList fitting
        exact heard_parameterList form
    | parameter =>
        obtain ⟨name, hint, form⟩ := Node.form_of_parameter fitting
        exact heard_parameter form
    | clause =>
        obtain ⟨isAsync, form⟩ := Node.form_of_clause fitting
        exact heard_clause form
    | imported =>
        obtain ⟨name, asName, form⟩ := Node.form_of_imported fitting
        exact heard_imported form
    | _ => exact absurd rfl plain

/-- What is heard of a node arises from the nodes that its visit comes to. -/
theorem heard_iff_arises {slot : Slot} {node : Node} (distinct : node.Distinct)
    (fitting : node.fits slot = true) :
    Heard slot spot node event ↔ Arises spot node event := by
  induction node using Node.induction generalizing slot spot with
  | step form info children induction =>
      rw [heard_iff distinct fitting, arises_iff]
      apply or_congr_right
      constructor
      · rintro ⟨⟨role, inner⟩, listed, child, member, same, found⟩
        subst same
        have fittingChild := Node.fits_of_slot fitting member listed
        have distinctChild := distinct.of_mem (Node.child_mem_nodes member)
        exact ⟨child, member, (induction child member distinctChild fittingChild).mp found⟩
      · rintro ⟨child, member, found⟩
        obtain ⟨inner, listed, fittingChild⟩ := Node.slot_of_child fitting member
        have distinctChild := distinct.of_mem (Node.child_mem_nodes member)
        exact ⟨_, listed, child, member, rfl,
          (induction child member distinctChild fittingChild).mpr found⟩

/-- The spot at which the root of a module is visited. -/
def atRoot (tree : Node) : Spot :=
  Spot.of { scope := tree.id, outer := [], frame := tree.id, parent := some tree }

/-- The events of a module are what the nodes reached from its root contribute. -/
theorem mem_ofModule_iff {tree : Node} (grammatical : tree.grammatical = true)
    (distinct : tree.Distinct) :
    event ∈ ofModule tree ↔ Arises (atRoot tree) tree event := by
  have form := Node.Grammatical.form_eq grammatical
  have inside : ∀ role id, (atRoot tree).step tree role id = atRoot tree :=
    Spot.step_module form
  rw [arises_iff, ofModule, own, form]
  simp only [List.mem_cons, mem_ofRole, List.not_mem_nil, or_false, Spot.toChild, inside, or_assoc]
  apply or_congr_right
  apply or_congr_right
  constructor
  · rintro ⟨child, member, role, found⟩
    have fitting := (Node.Grammatical.slot_of_child grammatical member).2
    have distinctChild := distinct.of_mem (Node.child_mem_nodes member)
    exact ⟨child, member, (heard_iff_arises distinctChild fitting).mp found⟩
  · rintro ⟨child, member, found⟩
    obtain ⟨role, fitting⟩ := Node.Grammatical.slot_of_child grammatical member
    have distinctChild := distinct.of_mem (Node.child_mem_nodes member)
    exact ⟨child, member, role, (heard_iff_arises distinctChild fitting).mpr found⟩

end

end Event

end SafeRefactor
