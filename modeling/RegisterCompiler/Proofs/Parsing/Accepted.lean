import RegisterCompiler.Proofs.Parsing.Unambiguous

/-!
# Programs that are accepted

The parser reads exactly the derivations of the grammar. That it reads nothing else follows its recursion; that it reads every
derivation follows the derivation. A branch without `else` is read only where no `else` follows it, and inside a block none does.
-/

namespace RegisterCompiler

open Grammar (Terminal start bodyTokens bodyTrees)

namespace Stream

/-! ## Nothing else is read -/

mutual

/-- What is read as a statement is one. -/
theorem exists_statement (s : Stream) {st : Statement} {rest : List Token} (h : s.statement.Gives st rest) :
    ∃ d : Grammar.Statement, s.tokens = d.tokens ++ rest ∧ d.tree = st := by
  rw [statement] at h
  split at h
  case h_1 => exact absurd h not_gives_error
  case h_2 statement r hhead =>
    obtain ⟨rfl, rfl⟩ := gives_ok.1 h
    obtain ⟨d, htokens, hd⟩ := exists_start ⟨r, hhead, rfl⟩
    cases d with
    | action a e =>
      obtain rfl := Head.whole.inj hd
      refine ⟨.action a e, htokens, ?_⟩
      rw [Grammar.Statement.tree, Grammar.Statement.tokens, Grammar.start_append a.tokens_ne_nil]
    | loop head opening => cases hd
    | branch head opening => cases hd
  case h_3 condition r hhead =>
    obtain ⟨d, htokens, hd⟩ := exists_start ⟨r, hhead, rfl⟩
    have hlt : r.val.size < s.size := r.property
    obtain ⟨sts, hbody, rfl⟩ := gives_map.1 (gives_reads.1 h)
    obtain ⟨ds, closing, hds, rfl⟩ := exists_body r.val hbody
    cases d with
    | action a e => cases hd
    | loop head opening =>
      obtain rfl := Head.loop.inj hd
      have hall : s.tokens = (Grammar.Statement.loop head opening ds closing).tokens ++ rest := by
        rw [htokens, hds]
        simp [Start.tokens, Grammar.Statement.tokens]
      exact ⟨_, hall, by rw [position_eq hall (by simp [Grammar.Statement.tokens])]; rfl⟩
    | branch head opening => cases hd
  case h_4 condition r hhead =>
    obtain ⟨d, htokens, hd⟩ := exists_start ⟨r, hhead, rfl⟩
    have hlt : r.val.size < s.size := r.property
    cases d with
    | action a e => cases hd
    | loop head opening => cases hd
    | branch head opening =>
      obtain rfl := Head.branch.inj hd
      replace h := gives_reads.1 h
      split at h
      · exact absurd h not_gives_error
      · rename_i sts r₁ hbody
        obtain ⟨ds, closing, hds, rfl⟩ := exists_body r.val ⟨r₁, hbody, rfl⟩
        -- the word behind the first body decides whether there is a second one
        split at h
        · rename_i hkind
          replace h := gives_reads.1 h
          split at h
          · exact absurd h not_gives_error
          · rename_i r₂ hotherwise
            obtain ⟨otherwise, hword⟩ := exists_terminal hkind nofun
            obtain ⟨opening', hopening⟩ := gives_expect.1 (gives_reads.1 ⟨r₂, hotherwise, rfl⟩)
            have hlt₂ : r₂.val.size < s.size := r₂.property.trans (r₁.property.trans r.property)
            obtain ⟨sts', hbody', rfl⟩ := gives_map.1 (gives_reads.1 h)
            obtain ⟨ds', closing', hds', rfl⟩ := exists_body r₂.val hbody'
            have hall : s.tokens =
                (Grammar.Statement.branchElse head opening ds closing otherwise opening' ds' closing').tokens ++ rest := by
              rw [htokens, hds, hword, hopening, hds']
              simp [Start.tokens, Grammar.Statement.tokens]
            exact ⟨_, hall, by rw [position_eq hall (by simp [Grammar.Statement.tokens])]; rfl⟩
        · obtain ⟨rfl, rfl⟩ := gives_ok.1 h
          have hall : s.tokens = (Grammar.Statement.branch head opening ds closing).tokens ++ r₁.val.tokens := by
            rw [htokens, hds]
            simp [Start.tokens, Grammar.Statement.tokens]
          exact ⟨_, hall, by rw [position_eq hall (by simp [Grammar.Statement.tokens])]; rfl⟩
termination_by (s.size, 0)
decreasing_by
  all_goals exact Prod.Lex.left _ _ (by assumption)

/-- What is read as a block behind its opening brace is one. -/
theorem exists_body (s : Stream) {sts : List Statement} {rest : List Token} (h : s.body.Gives sts rest) :
    ∃ (ds : List Grammar.Statement) (closing : Terminal (.symbol .braceClose)),
      s.tokens = bodyTokens ds ++ closing.token :: rest ∧ bodyTrees ds = sts := by
  rw [body] at h
  split at h
  case isTrue hkind =>
    obtain ⟨closing, hclosing⟩ := exists_terminal hkind nofun
    obtain ⟨rfl, rfl⟩ := gives_ok.1 h
    exact ⟨[], closing, hclosing, rfl⟩
  case isFalse hkind =>
    split at h
    · exact absurd h not_gives_error
    · rename_i st r hst
      obtain ⟨d, hd, rfl⟩ := exists_statement s ⟨r, hst, rfl⟩
      have hlt : r.val.size < s.size := r.property
      obtain ⟨sts, hbody, rfl⟩ := gives_map.1 (gives_reads.1 h)
      obtain ⟨ds, closing, hds, rfl⟩ := exists_body r.val hbody
      exact ⟨d :: ds, closing, by rw [hd, hds, bodyTokens, List.append_assoc], rfl⟩
termination_by (s.size, 1)
decreasing_by
  · exact Prod.Lex.right _ (by decide)
  · exact Prod.Lex.left _ _ (by assumption)

end

/-! ## Everything else is read -/

mutual

/-- Every statement is read, in front of what may follow it. -/
theorem gives_statement (d : Grammar.Statement) {s : Stream} {rest : List Token} (h : s.tokens = d.tokens ++ rest)
    (hrest : d.Before rest) : s.statement.Gives d.tree rest := by
  cases d with
  | action a ending =>
    rw [Grammar.Statement.tokens, List.append_assoc] at h
    obtain ⟨r, hr, hmiddle⟩ := gives_action a ending h
    rw [statement, hr, Grammar.Statement.tree, Grammar.Statement.tokens, Grammar.start_append a.tokens_ne_nil]
    exact ⟨r, rfl, hmiddle⟩
  | loop head opening body closing =>
    have hposition := position_eq h (by simp [Grammar.Statement.tokens])
    have htokens : s.tokens = (Start.loop head opening).tokens ++ (bodyTokens body ++ closing.token :: rest) := by
      rw [h]
      simp [Start.tokens, Grammar.Statement.tokens]
    obtain ⟨r, hr, hmiddle⟩ := gives_start _ htokens
    rw [statement, hr, Grammar.Statement.tree, ← hposition]
    exact gives_reads.2 (gives_map.2 ⟨_, gives_body body closing hmiddle, rfl⟩)
  | branch head opening body closing =>
    have hposition := position_eq h (by simp [Grammar.Statement.tokens])
    have htokens : s.tokens = (Start.branch head opening).tokens ++ (bodyTokens body ++ closing.token :: rest) := by
      rw [h]
      simp [Start.tokens, Grammar.Statement.tokens]
    obtain ⟨r, hr, hmiddle⟩ := gives_start _ htokens
    obtain ⟨r₁, hr₁, hbehind⟩ := gives_body body closing hmiddle
    have hkind : r₁.val.kind ≠ .keyword .otherwise := by
      unfold kind
      rw [hbehind]
      cases rest with
      | nil => exact nofun
      | cons t rest => exact hrest t rfl
    rw [statement, hr, Grammar.Statement.tree, ← hposition]
    refine gives_reads.2 ?_
    rw [hr₁]
    simp only [dif_neg hkind]
    exact gives_ok.2 ⟨rfl, hbehind⟩
  | branchElse head opening body closing otherwise elseOpening elseBody elseClosing =>
    have hposition := position_eq h (by simp [Grammar.Statement.tokens])
    have htokens : s.tokens = (Start.branch head opening).tokens ++ (bodyTokens body ++ closing.token ::
        (otherwise.token :: elseOpening.token :: (bodyTokens elseBody ++ elseClosing.token :: rest))) := by
      rw [h]
      simp [Start.tokens, Grammar.Statement.tokens]
    obtain ⟨r, hr, hmiddle⟩ := gives_start _ htokens
    obtain ⟨r₁, hr₁, h₁⟩ := gives_body body closing hmiddle
    have hkind : r₁.val.kind = .keyword .otherwise := kind_eq h₁
    obtain ⟨r₂, hr₂, h₂⟩ : (r₁.val.elseHead hkind).Gives () _ :=
      gives_reads.2 (gives_expect.2 ⟨elseOpening, tokens_advance h₁⟩)
    rw [statement, hr, Grammar.Statement.tree, ← hposition]
    refine gives_reads.2 ?_
    rw [hr₁]
    simp only [dif_pos hkind]
    refine gives_reads.2 ?_
    rw [hr₂]
    exact gives_reads.2 (gives_map.2 ⟨_, gives_body elseBody elseClosing h₂, rfl⟩)

/-- Every block is read, whatever follows it. -/
theorem gives_body (ds : List Grammar.Statement) (closing : Terminal (.symbol .braceClose)) {s : Stream} {rest : List Token}
    (h : s.tokens = bodyTokens ds ++ closing.token :: rest) : s.body.Gives (bodyTrees ds) rest := by
  cases ds with
  | nil =>
    have hkind : s.kind = .symbol .braceClose := kind_eq h
    rw [body, dif_pos hkind]
    exact gives_ok.2 ⟨rfl, tokens_advance h⟩
  | cons d ds =>
    rw [bodyTokens, List.append_assoc] at h
    obtain ⟨first, others, hfirst, hne, -⟩ := d.exists_first
    have hkind : s.kind ≠ .symbol .braceClose := by
      rw [hfirst] at h
      rwa [kind_eq h]
    obtain ⟨r, hr, hmiddle⟩ := gives_statement d h (d.before_block ds closing rest)
    rw [body, dif_neg hkind, hr]
    exact gives_reads.2 (gives_map.2 ⟨_, gives_body ds closing hmiddle, rfl⟩)

end

/-! ## Procedures and programs -/

/-- The parser reads exactly the procedures. -/
theorem gives_procedure {s : Stream} {p : Procedure} {rest : List Token} :
    s.procedure.Gives p rest ↔ ∃ d : Grammar.Procedure, s.tokens = d.tokens ++ rest ∧ d.tree = p := by
  constructor
  · intro h
    unfold procedure at h
    split at h
    case isTrue hkind =>
      obtain ⟨keyword, hkeyword⟩ := exists_terminal hkind (by simp)
      replace h : s.advance.named.Gives p rest := gives_reads.1 h
      unfold named at h
      split at h
      case h_1 name hname =>
        obtain ⟨identifier, hidentifier⟩ := exists_terminal hname (by simp)
        obtain ⟨_, s₁, h₁, h⟩ := exists_of_andThen (gives_reads.1 h)
        obtain ⟨opening, hopening⟩ := gives_expect.1 h₁
        obtain ⟨sts, hbody, rfl⟩ := gives_map.1 h
        obtain ⟨ds, closing, hds, rfl⟩ := exists_body s₁ hbody
        have hposition : s.advance.position = identifier.span.start := by rw [position, hidentifier]; rfl
        refine ⟨⟨keyword, identifier, opening, ds, closing⟩, ?_, ?_⟩
        · rw [hkeyword, hidentifier, hopening, hds]
          simp [Grammar.Procedure.tokens]
        · rw [hposition]
          rfl
      case h_2 => exact absurd h not_gives_error
    case isFalse => exact absurd h not_gives_error
  · rintro ⟨⟨keyword, identifier, opening, ds, closing⟩, htokens, rfl⟩
    simp only [Grammar.Procedure.tokens, List.cons_append, List.append_assoc] at htokens
    have hkind : s.kind = .keyword .procedure := kind_eq htokens
    rw [procedure, dif_pos hkind]
    obtain ⟨tokens, last⟩ := s
    obtain rfl : tokens = _ := htokens
    refine gives_reads.2 (gives_reads.2 ?_)
    refine (gives_expect.2 ⟨opening, rfl⟩).andThen fun r hr => ?_
    exact gives_map.2 ⟨_, gives_body ds closing hr, rfl⟩

/-- Tokens that end the input: none, or any behind an end of input. -/
def AtEnd (rest : List Token) : Prop := ∀ t, rest.head? = some t → t.kind = .endOfInput

/-- A stream asks for the end of the input where its tokens have ended. -/
theorem kind_eq_endOfInput_iff {s : Stream} : s.kind = .endOfInput ↔ AtEnd s.tokens := by
  obtain ⟨tokens, last⟩ := s
  cases tokens with
  | nil => exact iff_of_true rfl nofun
  | cons t rest => exact ⟨fun h t' ht' => Option.some.inj ht' ▸ h, fun h => h t rfl⟩

/-- A procedure is put behind the others, if its name is new. -/
theorem insert_eq_ok_iff {table table' : ProcedureTable} {p : Procedure} :
    table.insert p = .ok table' ↔ p.name ∉ table.names ∧ table'.procedures = table.procedures ++ [p] := by
  unfold ProcedureTable.insert
  split
  case isTrue hnew =>
    rw [Except.ok.injEq]
    refine ⟨fun h => h ▸ ⟨(table.contains_eq_false_iff p.name).1 hnew, rfl⟩, fun h => ?_⟩
    cases table'
    cases h.2
    rfl
  case isFalse hold =>
    exact iff_of_false nofun fun h => hold ((table.contains_eq_false_iff p.name).2 h.1)

/-- What is read as a program is one, and its procedures are put into the table. -/
theorem exists_program (s : Stream) {table table' : ProcedureTable} (h : s.procedures table = .ok table') :
    ∃ (p : Grammar.Program) (rest : List Token), s.tokens = p.tokens ++ rest ∧ AtEnd rest ∧
      table'.procedures = table.procedures ++ p.trees := by
  rw [procedures] at h
  split at h
  case isTrue hkind =>
    obtain rfl := Except.ok.inj h
    exact ⟨[], s.tokens, rfl, kind_eq_endOfInput_iff.1 hkind, (List.append_nil _).symm⟩
  case isFalse hkind =>
    split at h
    · cases h
    · rename_i p r hp
      have hlt : r.val.size < s.size := r.property
      obtain ⟨d, hd, rfl⟩ := gives_procedure.1 ⟨r, hp, rfl⟩
      split at h
      · cases h
      · rename_i inserted hinsert
        obtain ⟨ds, rest, hds, hend, hprocedures⟩ := exists_program r.val h
        have hinserted := (insert_eq_ok_iff.1 hinsert).2
        refine ⟨d :: ds, rest, ?_, hend, ?_⟩
        · rw [hd, hds, Grammar.Program.tokens, Grammar.Program.tokens, List.flatMap_cons, List.append_assoc]
        · rw [hprocedures, hinserted, List.append_assoc]
          rfl
termination_by s.size

/-- Behind the procedures of a derivation the parser goes on with these in its table, if their names differ from each other
and from those in the table. -/
theorem procedures_derived (p : Grammar.Program) {s : Stream} {rest : List Token} (h : s.tokens = p.tokens ++ rest)
    {table : ProcedureTable} (hnames : ((table.procedures ++ p.trees).map Procedure.name).Nodup) :
    ∃ (r : Stream) (table' : ProcedureTable), r.tokens = rest ∧ table'.procedures = table.procedures ++ p.trees ∧
      s.procedures table = r.procedures table' := by
  induction p generalizing s table with
  | nil => exact ⟨s, table, h, (List.append_nil _).symm, rfl⟩
  | cons d ds ih =>
    rw [Grammar.Program.tokens, List.flatMap_cons, List.append_assoc] at h
    rw [Grammar.Program.trees, List.map_cons, List.append_cons] at hnames
    have hkind : s.kind ≠ .endOfInput := by
      rw [kind_eq h]
      exact nofun
    obtain ⟨r, hr, hmiddle⟩ := gives_procedure.2 ⟨d, h, rfl⟩
    obtain ⟨inserted, hinserted⟩ : ∃ inserted : ProcedureTable, inserted.procedures = table.procedures ++ [d.tree] :=
      ⟨⟨_, hnames.sublist ((List.sublist_append_left _ _).map _)⟩, rfl⟩
    have hinsert : table.insert d.tree = .ok inserted := by
      refine insert_eq_ok_iff.2 ⟨fun hmem => ?_, hinserted⟩
      have hnodup := inserted.names_nodup
      rw [hinserted, List.map_append, List.nodup_append] at hnodup
      exact hnodup.2.2 _ hmem _ (List.mem_singleton_self _) rfl
    obtain ⟨q, table', hq, htable', hprocedures⟩ := ih hmiddle (hinserted ▸ hnames)
    refine ⟨q, table', hq, ?_, ?_⟩
    · rw [htable', hinserted, List.append_assoc]
      rfl
    · rw [procedures, if_neg hkind, hr]
      simp only [hinsert]
      exact hprocedures

/-- Every program is read whose procedures have names that differ from each other and from those in the table. -/
theorem procedures_eq_ok (p : Grammar.Program) {s : Stream} {rest : List Token} (h : s.tokens = p.tokens ++ rest)
    (hend : AtEnd rest) {table : ProcedureTable} (hnames : ((table.procedures ++ p.trees).map Procedure.name).Nodup) :
    ∃ table', s.procedures table = .ok table' := by
  obtain ⟨r, table', rfl, -, hprocedures⟩ := procedures_derived p h hnames
  refine ⟨table', ?_⟩
  rw [hprocedures, procedures, if_pos (kind_eq_endOfInput_iff.2 hend)]

/-- A procedure is refused whose name is in the table, where its name stands. -/
theorem procedures_eq_redeclared (d : Grammar.Procedure) {s : Stream} {rest : List Token} (h : s.tokens = d.tokens ++ rest)
    {table : ProcedureTable} (hname : d.name ∈ table.names) :
    s.procedures table = .error ⟨.redeclared d.name, d.tree.position⟩ := by
  have hkind : s.kind ≠ .endOfInput := by
    rw [kind_eq h]
    exact nofun
  obtain ⟨r, hr, -⟩ := gives_procedure.2 ⟨d, h, rfl⟩
  have hinsert : table.insert d.tree = .error d.tree := by
    rw [ProcedureTable.insert, dif_neg]
    exact fun hnew => (table.contains_eq_false_iff _).1 hnew hname
  rw [procedures, if_neg hkind, hr]
  simp only [hinsert]
  rfl

end Stream

/-! ## What the parser accepts -/

/-- The tokens in front of the end of the input. -/
def beforeEnd (tokens : List Token) : List Token := tokens.takeWhile fun t => t.kind ≠ .endOfInput

/-- Tokens that stand before an end are found again by cutting there. -/
theorem beforeEnd_eq {used rest : List Token} (hused : Grammar.Inside used) (hrest : Stream.AtEnd rest) :
    beforeEnd (used ++ rest) = used := by
  have hall : ∀ t ∈ used, decide (t.kind ≠ .endOfInput) = true := fun t ht => decide_eq_true (hused t ht)
  rw [beforeEnd, List.takeWhile_append_of_pos hall]
  cases rest with
  | nil => exact List.append_nil _
  | cons t rest => rw [List.takeWhile_cons_of_neg (by simp [hrest t rfl]), List.append_nil]

/-- Any tokens are those before the first end of the input, and a rest that is at its end. -/
theorem exists_rest (tokens : List Token) : ∃ rest, tokens = beforeEnd tokens ++ rest ∧ Stream.AtEnd rest := by
  refine ⟨tokens.dropWhile fun t => t.kind ≠ .endOfInput, List.takeWhile_append_dropWhile.symm, fun t ht => ?_⟩
  have := List.head?_dropWhile_not (fun t : Token => decide (t.kind ≠ .endOfInput)) tokens
  rw [ht] at this
  simpa using this

/-- A table is the result of parsing exactly if its procedures are the tree of a derivation of the tokens before the end. -/
theorem parseTokens_eq_ok_iff {tokens : List Token} {table : ProcedureTable} :
    parseTokens tokens = .ok table ↔
      ∃ p : Grammar.Program, p.tokens = beforeEnd tokens ∧ p.trees = table.procedures := by
  have hsound : ∀ {table : ProcedureTable}, parseTokens tokens = .ok table →
      ∃ p : Grammar.Program, p.tokens = beforeEnd tokens ∧ p.trees = table.procedures := by
    intro table h
    obtain ⟨p, rest, htokens, hend, hprocedures⟩ := Stream.exists_program _ h
    obtain rfl : tokens = p.tokens ++ rest := htokens
    exact ⟨p, (beforeEnd_eq p.inside hend).symm, hprocedures.symm⟩
  refine ⟨hsound, ?_⟩
  rintro ⟨p, hp, hprocedures⟩
  obtain ⟨rest, htokens, hend⟩ := exists_rest tokens
  rw [← hp] at htokens
  have hnames : ((ProcedureTable.empty.procedures ++ p.trees).map Procedure.name).Nodup := hprocedures ▸ table.names_nodup
  obtain ⟨table', htable⟩ : ∃ table', parseTokens tokens = .ok table' :=
    Stream.procedures_eq_ok p (s := Stream.ofTokens tokens) htokens hend hnames
  -- The parser has read some derivation of the same tokens, and there is only one.
  obtain ⟨p', hp', hprocedures'⟩ := hsound htable
  obtain rfl := Grammar.Program.unique (hp'.trans hp.symm)
  rw [htable]
  cases table
  cases table'
  cases hprocedures
  cases hprocedures'
  rfl

/-- The procedures of a program have the names that its derivation gives them. -/
theorem map_name_trees (p : Grammar.Program) : p.trees.map Procedure.name = p.map Grammar.Procedure.name := by
  rw [Grammar.Program.trees, List.map_map]
  rfl

/-- The parser accepts exactly its grammar. Its results are the trees of the derivations of the tokens before the end of the input;
it has a result if the procedures of such a derivation have different names; tokens have no more than one derivation; and the
number of a negated literal is exact. -/
theorem parseTokens_accepts (tokens : List Token) :
    (∀ table : ProcedureTable, parseTokens tokens = .ok table ↔
      ∃ p : Grammar.Program, p.tokens = beforeEnd tokens ∧ p.trees = table.procedures) ∧
    ((∃ table, parseTokens tokens = .ok table) ↔
      ∃ p : Grammar.Program, p.tokens = beforeEnd tokens ∧ (p.map Grammar.Procedure.name).Nodup) ∧
    (∀ p p' : Grammar.Program, p.tokens = p'.tokens → p = p') ∧
    ∀ {n : Fin 0x8000000000000000} (minus : Terminal (.symbol (.operation .sub))) (literal : Terminal (.integer n)),
      ∃ m : Int64, (Grammar.Operand.negative minus literal).tree.value = .immediate m ∧ m.toInt = -n.val := by
  refine ⟨fun table => parseTokens_eq_ok_iff, ⟨?_, ?_⟩, fun p p' h => Grammar.Program.unique h, fun minus literal => ?_⟩
  · rintro ⟨table, h⟩
    obtain ⟨p, hp, hprocedures⟩ := parseTokens_eq_ok_iff.1 h
    refine ⟨p, hp, ?_⟩
    rw [← map_name_trees, hprocedures]
    exact table.names_nodup
  · rintro ⟨p, hp, hnames⟩
    rw [← map_name_trees] at hnames
    exact ⟨⟨p.trees, hnames⟩, parseTokens_eq_ok_iff.2 ⟨p, hp, rfl⟩⟩
  · exact ⟨_, rfl, Int64.toInt_ofIntLE⟩

end RegisterCompiler
