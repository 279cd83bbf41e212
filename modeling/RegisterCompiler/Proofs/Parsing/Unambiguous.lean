import RegisterCompiler.Proofs.Parsing.Reading

/-!
# The grammar is unambiguous

Tokens have at most one derivation (`Program.unique`). Each nonterminal is decided from the left: two derivations in front of
anything that yield the same tokens are the same, and so is what they stand in front of. For an action and the beginning of a loop
or branch this uses that the parser reads all of them: what it reads tells their kind.
-/

namespace RegisterCompiler

namespace Grammar

variable {rest rest' : List Token}

/-- Equal tokens are of one kind. -/
theorem Terminal.kind_unique {kind kind' : TokenKind} {t : Terminal kind} {t' : Terminal kind'}
    (h : t.token :: rest = t'.token :: rest') : kind = kind' := congrArg Token.kind (List.cons.inj h).1

/-- The first token determines a terminal of its kind. -/
theorem Terminal.unique {kind : TokenKind} {t t' : Terminal kind} (h : t.token :: rest = t'.token :: rest') :
    t = t' ∧ rest = rest' := by
  rcases t with ⟨span, lexeme⟩
  rcases t' with ⟨span', lexeme'⟩
  cases h
  exact ⟨rfl, rfl⟩

/-- Tokens begin with one operand at most. -/
theorem Operand.unique {o o' : Operand} (h : o.tokens ++ rest = o'.tokens ++ rest') : o = o' ∧ rest = rest' := by
  rcases o with ⟨⟨span, lexeme⟩⟩ | ⟨⟨span, lexeme⟩⟩ | ⟨⟨span, lexeme⟩, ⟨spanOf, lexemeOf⟩⟩ <;>
    rcases o' with ⟨⟨span', lexeme'⟩⟩ | ⟨⟨span', lexeme'⟩⟩ | ⟨⟨span', lexeme'⟩, ⟨spanOf', lexemeOf'⟩⟩ <;>
    cases h <;> exact ⟨rfl, rfl⟩

theorem Condition.unique {c c' : Condition} (h : c.tokens ++ rest = c'.tokens ++ rest') : c = c' ∧ rest = rest' := by
  obtain ⟨lhs, operator, rhs⟩ := c
  obtain ⟨lhs', operator', rhs'⟩ := c'
  simp only [Condition.tokens, List.append_assoc, List.cons_append] at h
  obtain ⟨rfl, hoperator⟩ := Operand.unique h
  cases Terminal.kind_unique hoperator
  obtain ⟨rfl, hrhs⟩ := Terminal.unique hoperator
  obtain ⟨rfl, hrest⟩ := Operand.unique hrhs
  exact ⟨rfl, hrest⟩

theorem Ending.unique {e e' : Ending} (h : e.tokens ++ rest = e'.tokens ++ rest') : e = e' ∧ rest = rest' := by
  cases e with
  | unguarded semicolon =>
    cases e' with
    | unguarded semicolon' =>
      obtain ⟨rfl, hrest⟩ := Terminal.unique h
      exact ⟨rfl, hrest⟩
    | guarded keyword condition semicolon' => cases Terminal.kind_unique h
  | guarded keyword condition semicolon =>
    cases e' with
    | unguarded semicolon' => cases Terminal.kind_unique h
    | guarded keyword' condition' semicolon' =>
      simp only [Ending.tokens, List.append_assoc, List.cons_append] at h
      obtain ⟨rfl, hcondition⟩ := Terminal.unique h
      obtain ⟨rfl, hsemicolon⟩ := Condition.unique hcondition
      obtain ⟨rfl, hrest⟩ := Terminal.unique hsemicolon
      exact ⟨rfl, hrest⟩

/-- Readings of one stream agree. -/
theorem gives_unique {s : Stream} {α : Type} {x : Stream.Reads s α} {a a' : α} (h : x.Gives a rest) (h' : x.Gives a' rest') :
    a = a' ∧ rest = rest' := by
  obtain ⟨r, hr, rfl⟩ := h
  obtain ⟨r', hr', rfl⟩ := h'
  obtain ⟨rfl, rfl⟩ := Prod.mk.inj (Except.ok.inj (hr.symm.trans hr'))
  exact ⟨rfl, rfl⟩

/-- An action with its end is determined by its tokens. -/
theorem Action.unique {a a' : Action} {e e' : Ending} (h : a.tokens ++ (e.tokens ++ rest) = a'.tokens ++ (e'.tokens ++ rest')) :
    a = a' ∧ e = e' ∧ rest = rest' := by
  have htree : a.tree = a'.tree := by
    have hread := Stream.gives_action (s := Stream.ofTokens (a.tokens ++ (e.tokens ++ rest))) a e rfl
    have hread' := Stream.gives_action (s := Stream.ofTokens (a.tokens ++ (e.tokens ++ rest))) a' e' h
    obtain ⟨hhead, -⟩ := gives_unique hread hread'
    injection hhead with hst
    injection hst
  -- What is left once the actions are known to be the same.
  have hend : a = a' → e.tokens ++ rest = e'.tokens ++ rest' → a = a' ∧ e = e' ∧ rest = rest' := fun ha he =>
    ⟨ha, Ending.unique he⟩
  cases a with
  | assign register equals source =>
    cases a' with
    | assign register' equals' source' =>
      obtain ⟨rfl, -⟩ := RegisterCompiler.Action.assign.inj htree
      obtain ⟨rfl, hequals⟩ := Terminal.unique h
      obtain ⟨rfl, hsource⟩ := Terminal.unique hequals
      obtain ⟨rfl, hrest⟩ := Operand.unique hsource
      exact hend rfl hrest
    | _ => cases htree
  | compute register equals lhs operator rhs =>
    cases a' with
    | compute register' equals' lhs' operator' rhs' =>
      obtain ⟨rfl, rfl, -⟩ := RegisterCompiler.Action.compute.inj htree
      simp only [Action.tokens, List.append_assoc, List.cons_append] at h
      obtain ⟨rfl, hequals⟩ := Terminal.unique h
      obtain ⟨rfl, hlhs⟩ := Terminal.unique hequals
      obtain ⟨rfl, hoperator⟩ := Operand.unique hlhs
      obtain ⟨rfl, hrhs⟩ := Terminal.unique hoperator
      obtain ⟨rfl, hrest⟩ := Operand.unique hrhs
      exact hend rfl hrest
    | _ => cases htree
  | update register operator source =>
    cases a' with
    | update register' operator' source' =>
      obtain ⟨rfl, rfl, -⟩ := RegisterCompiler.Action.update.inj htree
      obtain ⟨rfl, hoperator⟩ := Terminal.unique h
      obtain ⟨rfl, hsource⟩ := Terminal.unique hoperator
      obtain ⟨rfl, hrest⟩ := Operand.unique hsource
      exact hend rfl hrest
    | _ => cases htree
  | breakLoop keyword =>
    cases a' with
    | breakLoop keyword' =>
      obtain ⟨rfl, hrest⟩ := Terminal.unique h
      exact hend rfl hrest
    | _ => cases htree
  | continueLoop keyword =>
    cases a' with
    | continueLoop keyword' =>
      obtain ⟨rfl, hrest⟩ := Terminal.unique h
      exact hend rfl hrest
    | _ => cases htree
  | returnCall keyword =>
    cases a' with
    | returnCall keyword' =>
      obtain ⟨rfl, hrest⟩ := Terminal.unique h
      exact hend rfl hrest
    | _ => cases htree
  | call identifier =>
    cases a' with
    | call identifier' =>
      obtain rfl := RegisterCompiler.Action.call.inj htree
      obtain ⟨rfl, hrest⟩ := Terminal.unique h
      exact hend rfl hrest
    | _ => cases htree
  | print output source =>
    cases a' with
    | print output' source' =>
      obtain ⟨rfl, hsource⟩ := Terminal.unique h
      obtain ⟨rfl, hrest⟩ := Operand.unique hsource
      exact hend rfl hrest
    | _ => cases htree
  | printText output literal =>
    cases a' with
    | printText output' literal' =>
      obtain rfl := RegisterCompiler.Action.printText.inj htree
      obtain ⟨rfl, hliteral⟩ := Terminal.unique h
      obtain ⟨rfl, hrest⟩ := Terminal.unique hliteral
      exact hend rfl hrest
    | _ => cases htree
  | push keyword register =>
    cases a' with
    | push keyword' register' =>
      obtain rfl := RegisterCompiler.Action.push.inj htree
      obtain ⟨rfl, hregister⟩ := Terminal.unique h
      obtain ⟨rfl, hrest⟩ := Terminal.unique hregister
      exact hend rfl hrest
    | _ => cases htree
  | pop keyword register =>
    cases a' with
    | pop keyword' register' =>
      obtain rfl := RegisterCompiler.Action.pop.inj htree
      obtain ⟨rfl, hregister⟩ := Terminal.unique h
      obtain ⟨rfl, hrest⟩ := Terminal.unique hregister
      exact hend rfl hrest
    | _ => cases htree

/-- A keyword, a condition in parentheses and the brace behind it are determined by their tokens. -/
theorem bracketed_unique {kind : TokenKind} {keyword keyword' : Terminal kind} {paren paren' : Terminal (.symbol .parenOpen)}
    {condition condition' : Condition} {closing closing' : Terminal (.symbol .parenClose)}
    {opening opening' : Terminal (.symbol .braceOpen)}
    (h : keyword.token :: paren.token :: (condition.tokens ++ closing.token :: opening.token :: rest) =
      keyword'.token :: paren'.token :: (condition'.tokens ++ closing'.token :: opening'.token :: rest')) :
    keyword = keyword' ∧ paren = paren' ∧ condition = condition' ∧ closing = closing' ∧ opening = opening' ∧ rest = rest' := by
  obtain ⟨rfl, hparen⟩ := Terminal.unique h
  obtain ⟨rfl, hcondition⟩ := Terminal.unique hparen
  obtain ⟨rfl, hclosing⟩ := Condition.unique hcondition
  obtain ⟨rfl, hopening⟩ := Terminal.unique hclosing
  exact ⟨rfl, rfl, rfl, rfl, Terminal.unique hopening⟩

theorem LoopHead.unique {l l' : LoopHead} {opening opening' : Terminal (.symbol .braceOpen)}
    (h : l.tokens ++ opening.token :: rest = l'.tokens ++ opening'.token :: rest') :
    l = l' ∧ opening = opening' ∧ rest = rest' := by
  cases l with
  | endless keyword =>
    cases l' with
    | endless keyword' =>
      obtain ⟨rfl, hopening⟩ := Terminal.unique h
      exact ⟨rfl, Terminal.unique hopening⟩
    | conditional keyword' paren condition closing => cases Terminal.kind_unique (Terminal.unique h).2
  | conditional keyword paren condition closing =>
    cases l' with
    | endless keyword' => cases Terminal.kind_unique (Terminal.unique h).2
    | conditional keyword' paren' condition' closing' =>
      simp only [LoopHead.tokens, List.append_assoc, List.cons_append, List.nil_append] at h
      obtain ⟨rfl, rfl, rfl, rfl, hrest⟩ := bracketed_unique h
      exact ⟨rfl, hrest⟩

theorem BranchHead.unique {b b' : BranchHead} {opening opening' : Terminal (.symbol .braceOpen)}
    (h : b.tokens ++ opening.token :: rest = b'.tokens ++ opening'.token :: rest') :
    b = b' ∧ opening = opening' ∧ rest = rest' := by
  obtain ⟨keyword, paren, condition, closing⟩ := b
  obtain ⟨keyword', paren', condition', closing'⟩ := b'
  simp only [BranchHead.tokens, List.append_assoc, List.cons_append, List.nil_append] at h
  obtain ⟨rfl, rfl, rfl, rfl, hrest⟩ := bracketed_unique h
  exact ⟨rfl, hrest⟩

/-- The beginning of a statement is determined by its tokens. -/
theorem start_unique {d d' : Stream.Start} (h : d.tokens ++ rest = d'.tokens ++ rest') : d = d' ∧ rest = rest' := by
  have hhead : d.head = d'.head := (gives_unique (Stream.gives_start (s := Stream.ofTokens (d.tokens ++ rest)) d rfl)
    (Stream.gives_start (s := Stream.ofTokens (d.tokens ++ rest)) d' h)).1
  cases d with
  | action a e =>
    cases d' with
    | action a' e' =>
      simp only [Stream.Start.tokens, List.append_assoc] at h
      obtain ⟨rfl, rfl, hrest⟩ := Action.unique h
      exact ⟨rfl, hrest⟩
    | loop head opening => cases hhead
    | branch head opening => cases hhead
  | loop head opening =>
    cases d' with
    | action a' e' => cases hhead
    | loop head' opening' =>
      simp only [Stream.Start.tokens, List.append_assoc] at h
      obtain ⟨rfl, rfl, hrest⟩ := LoopHead.unique h
      exact ⟨rfl, hrest⟩
    | branch head' opening' => cases hhead
  | branch head opening =>
    cases d' with
    | action a' e' => cases hhead
    | loop head' opening' => cases hhead
    | branch head' opening' =>
      simp only [Stream.Start.tokens, List.append_assoc] at h
      obtain ⟨rfl, rfl, hrest⟩ := BranchHead.unique h
      exact ⟨rfl, hrest⟩

/-- How a statement begins. -/
def Statement.start : Statement → Stream.Start
  | action a ending => .action a ending
  | loop head opening _ _ => .loop head opening
  | branch head opening _ _ => .branch head opening
  | branchElse head opening _ _ _ _ _ _ => .branch head opening

/-- The tokens of a statement behind its beginning. -/
def Statement.behind : Statement → List Token
  | action _ _ => []
  | loop _ _ body closing => bodyTokens body ++ [closing.token]
  | branch _ _ body closing => bodyTokens body ++ [closing.token]
  | branchElse _ _ body closing otherwise elseOpening elseBody elseClosing =>
    bodyTokens body ++ closing.token :: otherwise.token :: elseOpening.token :: bodyTokens elseBody ++ [elseClosing.token]

/-- A statement is written by how it begins and what stands behind that. -/
theorem Statement.tokens_eq (d : Statement) : d.tokens = d.start.tokens ++ d.behind := by
  cases d <;> simp [Statement.tokens, Statement.start, Statement.behind, Stream.Start.tokens]

mutual

/-- A statement is determined by its tokens, as far as what follows it may follow it. -/
theorem Statement.unique (d d' : Statement) {rest rest' : List Token} (h : d.tokens ++ rest = d'.tokens ++ rest')
    (hrest : d.Before rest) (hrest' : d'.Before rest') : d = d' ∧ rest = rest' := by
  rw [d.tokens_eq, d'.tokens_eq, List.append_assoc, List.append_assoc] at h
  obtain ⟨hstart, hbehind⟩ := start_unique h
  cases d with
  | action a ending =>
    cases d' with
    | action a' ending' =>
      obtain ⟨rfl, rfl⟩ := Stream.Start.action.inj hstart
      exact ⟨rfl, hbehind⟩
    | _ => cases hstart
  | loop head opening body closing =>
    cases d' with
    | loop head' opening' body' closing' =>
      obtain ⟨rfl, rfl⟩ := Stream.Start.loop.inj hstart
      simp only [Statement.behind, List.append_assoc] at hbehind
      obtain ⟨rfl, rfl, hrest⟩ := body_unique body body' hbehind
      exact ⟨rfl, hrest⟩
    | _ => cases hstart
  | branch head opening body closing =>
    cases d' with
    | branch head' opening' body' closing' =>
      obtain ⟨rfl, rfl⟩ := Stream.Start.branch.inj hstart
      simp only [Statement.behind, List.append_assoc] at hbehind
      obtain ⟨rfl, rfl, hrest⟩ := body_unique body body' hbehind
      exact ⟨rfl, hrest⟩
    | branchElse head' opening' body' closing' otherwise' elseOpening' elseBody' elseClosing' =>
      simp only [Statement.behind, List.append_assoc, List.cons_append] at hbehind
      obtain ⟨-, -, rfl⟩ := body_unique body body' hbehind
      exact absurd rfl (hrest _ rfl)
    | _ => cases hstart
  | branchElse head opening body closing otherwise elseOpening elseBody elseClosing =>
    cases d' with
    | branch head' opening' body' closing' =>
      simp only [Statement.behind, List.append_assoc, List.cons_append] at hbehind
      obtain ⟨-, -, rfl⟩ := body_unique body body' hbehind
      exact absurd rfl (hrest' _ rfl)
    | branchElse head' opening' body' closing' otherwise' elseOpening' elseBody' elseClosing' =>
      obtain ⟨rfl, rfl⟩ := Stream.Start.branch.inj hstart
      simp only [Statement.behind, List.append_assoc, List.cons_append] at hbehind
      obtain ⟨rfl, rfl, helse⟩ := body_unique body body' hbehind
      obtain ⟨rfl, hopening⟩ := Terminal.unique helse
      obtain ⟨rfl, hbody⟩ := Terminal.unique hopening
      obtain ⟨rfl, rfl, hrest⟩ := body_unique elseBody elseBody' hbody
      exact ⟨rfl, hrest⟩
    | _ => cases hstart

/-- A block is determined by its tokens, whatever follows it. -/
theorem body_unique (ds ds' : List Statement) {closing closing' : Terminal (.symbol .braceClose)} {rest rest' : List Token}
    (h : bodyTokens ds ++ closing.token :: rest = bodyTokens ds' ++ closing'.token :: rest') :
    ds = ds' ∧ closing = closing' ∧ rest = rest' := by
  cases ds with
  | nil =>
    cases ds' with
    | nil => exact ⟨rfl, Terminal.unique h⟩
    | cons d' ds' =>
      obtain ⟨first, others, hfirst, hne, -⟩ := d'.exists_first
      rw [bodyTokens, bodyTokens, hfirst] at h
      exact absurd (congrArg Token.kind (List.cons.inj h).1).symm hne
  | cons d ds =>
    cases ds' with
    | nil =>
      obtain ⟨first, others, hfirst, hne, -⟩ := d.exists_first
      rw [bodyTokens, bodyTokens, hfirst] at h
      exact absurd (congrArg Token.kind (List.cons.inj h).1) hne
    | cons d' ds' =>
      rw [bodyTokens, bodyTokens, List.append_assoc, List.append_assoc] at h
      obtain ⟨rfl, hbody⟩ := d.unique d' h (d.before_block ds closing rest) (d'.before_block ds' closing' rest')
      obtain ⟨rfl, hend⟩ := body_unique ds ds' hbody
      exact ⟨rfl, hend⟩

end

/-- Tokens begin with one procedure at most. -/
theorem Procedure.unique {p p' : Procedure} (h : p.tokens ++ rest = p'.tokens ++ rest') : p = p' ∧ rest = rest' := by
  obtain ⟨keyword, identifier, opening, body, closing⟩ := p
  obtain ⟨keyword', identifier', opening', body', closing'⟩ := p'
  simp only [Procedure.tokens, List.append_assoc, List.cons_append] at h
  obtain ⟨rfl, hidentifier⟩ := Terminal.unique h
  cases Terminal.kind_unique hidentifier
  obtain ⟨rfl, hopening⟩ := Terminal.unique hidentifier
  obtain ⟨rfl, hbody⟩ := Terminal.unique hopening
  obtain ⟨rfl, rfl, hrest⟩ := body_unique body body' hbody
  exact ⟨rfl, hrest⟩

/-- A program has one derivation. -/
theorem Program.unique {p p' : Program} (h : p.tokens = p'.tokens) : p = p' := by
  induction p generalizing p' with
  | nil =>
    cases p' with
    | nil => rfl
    | cons q' p' => cases h
  | cons q p ih =>
    cases p' with
    | nil => cases h
    | cons q' p' =>
      obtain ⟨rfl, hrest⟩ := Procedure.unique (h : q.tokens ++ Program.tokens p = q'.tokens ++ Program.tokens p')
      rw [ih hrest]

end Grammar

end RegisterCompiler
