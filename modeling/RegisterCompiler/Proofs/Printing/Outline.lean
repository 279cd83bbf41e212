import RegisterCompiler.Proofs.Faults
import RegisterCompiler.Proofs.Printing.Headings

/-!
# Printed programs are unambiguous

A printed program is a list of lines, each with the depth of its indentation. The lines are known from the text, since none of
them has a line feed or begins with a space (`Line.map_unplaced_of_chars`), and the program is known from its lines: a body ends before
the first line that is not as deep, and a branch has an else-body exactly if a line says so at its own depth
(`unplacedBody_of_lines`). So two programs are printed alike exactly if they differ in nothing but positions
(`ProcedureTable.render_eq_render_iff`).
-/

namespace RegisterCompiler

/-- A line of a printed program. -/
structure Line where
  depth : Nat
  heading : Heading

namespace Line

/-- The characters of a line, with its line feed. -/
def chars (l : Line) : List Char := (indented l.depth l.heading.text).toList

/-- A line without positions. -/
def unplaced (l : Line) : Line := ⟨l.depth, l.heading.unplaced⟩

end Line

mutual

/-- The lines of a statement. -/
def Statement.lines (depth : Nat) : Statement → List Line
  | .action action guard _ => [⟨depth, .action action guard⟩]
  | .loop condition body guard _ => ⟨depth, .loop condition guard⟩ :: bodyLines (depth + 1) body
  | .branch condition thenBody elseBody guard _ =>
    ⟨depth, .branch condition guard⟩ :: bodyLines (depth + 1) thenBody ++
      (if elseBody.isEmpty then [] else ⟨depth, .otherwise⟩ :: bodyLines (depth + 1) elseBody)

/-- The lines of a list of statements. -/
def bodyLines (depth : Nat) : List Statement → List Line
  | [] => []
  | s :: rest => s.lines depth ++ bodyLines depth rest

end

/-- The lines of a procedure. -/
def Procedure.lines (p : Procedure) : List Line := ⟨0, .procedure p.name⟩ :: bodyLines 1 p.body

/-- The lines of a program. -/
def ProcedureTable.lines (t : ProcedureTable) : List Line := t.procedures.flatMap Procedure.lines

/-! ## The text is that of the lines -/

mutual

/-- The text of a statement is that of its lines. -/
theorem Statement.toList_render (depth : Nat) (s : Statement) : (s.render depth).toList = (s.lines depth).flatMap Line.chars := by
  cases s with
  | action action guard position => simp [Statement.render, Statement.lines, Line.chars, Heading.text]
  | loop condition body guard position =>
    simp [Statement.render, Statement.lines, Line.chars, Heading.text, toList_renderBody (depth + 1) body]
  | branch condition thenBody elseBody guard position =>
    rw [Statement.render, Statement.lines]
    have hthen := toList_renderBody (depth + 1) thenBody
    have helse := toList_renderBody (depth + 1) elseBody
    by_cases hempty : elseBody.isEmpty = true <;> simp [hempty, Line.chars, Heading.text, hthen, helse]

/-- The text of a body is that of its lines. -/
theorem toList_renderBody (depth : Nat) (body : List Statement) :
    (renderBody depth body).toList = (bodyLines depth body).flatMap Line.chars := by
  cases body with
  | nil => rfl
  | cons s rest => simp [renderBody, bodyLines, s.toList_render depth, toList_renderBody depth rest]

end

/-- The text of a program is that of its lines. -/
theorem ProcedureTable.toList_render (t : ProcedureTable) : t.render.toList = t.lines.flatMap Line.chars := by
  rw [render, lines]
  induction t.procedures with
  | nil => rfl
  | cons p rest ih =>
    rw [List.map_cons, String.join_cons, String.toList_append, ih, List.flatMap_cons, List.flatMap_append]
    simp [Procedure.render, Procedure.lines, Line.chars, indented, indentation, Heading.text, toList_renderBody]

/-! ## Lines known from the text -/

/-- How many spaces a text begins with is known from the text. -/
theorem spaces_inj {m n : Nat} {c d : Char} {x y : List Char} (hc : c ≠ ' ') (hd : d ≠ ' ')
    (h : List.replicate m ' ' ++ c :: x = List.replicate n ' ' ++ d :: y) : m = n ∧ c :: x = d :: y := by
  induction m generalizing n with
  | zero =>
    cases n with
    | zero => exact ⟨rfl, h⟩
    | succ n => exact absurd (List.head_eq_of_cons_eq h) hc
  | succ m ih =>
    cases n with
    | zero => exact absurd (List.head_eq_of_cons_eq h).symm hd
    | succ n =>
      obtain ⟨rfl, hrest⟩ := ih (List.tail_eq_of_cons_eq h)
      exact ⟨rfl, hrest⟩

namespace Line

/-- A line is its spaces, its text and a line feed before what follows. -/
theorem chars_append (l : Line) (rest : List Char) :
    l.chars ++ rest = (List.replicate (2 * l.depth) ' ' ++ l.heading.text.toList) ++ '\n' :: rest := by
  simp [chars, indented, indentation]

/-- A line ends at its line feed, and its text begins behind its spaces. -/
theorem chars_append_inj {l l' : Line} (hl : l.heading.Proper) (hl' : l'.heading.Proper) {x y : List Char}
    (h : l.chars ++ x = l'.chars ++ y) : l.unplaced = l'.unplaced ∧ x = y := by
  have hnewline (line : Line) (hline : line.heading.Proper) :
      '\n' ∉ List.replicate (2 * line.depth) ' ' ++ line.heading.text.toList := by
    rw [List.mem_append, not_or]
    exact ⟨fun hmem => absurd (List.eq_of_mem_replicate hmem) (by decide), Heading.newline_notMem_text hline⟩
  rw [chars_append, chars_append] at h
  obtain ⟨hline, hxy⟩ := append_cons_inj (hnewline l hl) (hnewline l' hl') h
  obtain ⟨c, cs, htext, hc⟩ := l.heading.exists_text_cons
  obtain ⟨d, ds, htext', hd⟩ := l'.heading.exists_text_cons
  rw [htext, htext'] at hline
  obtain ⟨hdepth, hcs⟩ := spaces_inj hc hd hline
  rw [← htext, ← htext'] at hcs
  have hheading := Heading.unplaced_eq_of_text hl hl' (String.toList_inj.1 hcs)
  refine ⟨?_, hxy⟩
  rw [unplaced, unplaced, hheading, Nat.eq_of_mul_eq_mul_left Nat.two_pos hdepth]

/-- Lines are known from their characters, but for positions. -/
theorem map_unplaced_of_chars {ls ls' : List Line} (hls : ∀ l ∈ ls, l.heading.Proper) (hls' : ∀ l ∈ ls', l.heading.Proper)
    (h : ls.flatMap chars = ls'.flatMap chars) : ls.map unplaced = ls'.map unplaced := by
  have hne (l : Line) (rest : List Char) : l.chars ++ rest ≠ [] := by simp [chars_append]
  induction ls generalizing ls' with
  | nil =>
    cases ls' with
    | nil => rfl
    | cons l' rest' => exact absurd h.symm (hne l' _)
  | cons l rest ih =>
    cases ls' with
    | nil => exact absurd h (hne l _)
    | cons l' rest' =>
      rw [List.forall_mem_cons] at hls hls'
      obtain ⟨hl, hrest⟩ := chars_append_inj hls.1 hls'.1 h
      rw [List.map_cons, List.map_cons, hl, ih hls.2 hls'.2 hrest]

end Line

/-! ## Programs known from their lines -/

/-- The lines that may follow a body: the first of them is not as deep. -/
def EndsBody (depth : Nat) (rest : List Line) : Prop := ∀ l ∈ rest.head?, l.depth < depth

/-- The lines that may follow a statement: the first of them is not deeper, and begins no else-body of the statement. -/
def EndsStatement (depth : Nat) (rest : List Line) : Prop :=
  ∀ l ∈ rest.head?, l.depth ≤ depth ∧ (l.depth = depth → l.heading ≠ .otherwise)

/-- What may follow a statement may follow the body in it. -/
theorem EndsStatement.endsBody {depth : Nat} {rest : List Line} (h : EndsStatement depth rest) : EndsBody (depth + 1) rest :=
  fun l hl => Nat.lt_succ_of_le (h l hl).1

/-- A statement begins with a line of its own depth that does not begin an else-body. -/
theorem Statement.exists_lines_cons (depth : Nat) (s : Statement) :
    ∃ heading rest, (s.lines depth).map Line.unplaced = ⟨depth, heading⟩ :: rest ∧ heading ≠ .otherwise := by
  cases s with
  | action action guard position => exact ⟨_, _, rfl, nofun⟩
  | loop condition body guard position => exact ⟨_, _, rfl, nofun⟩
  | branch condition thenBody elseBody guard position => exact ⟨_, _, rfl, nofun⟩

/-- What stands behind a statement in a body may follow it. -/
theorem EndsBody.endsStatement {depth : Nat} {rest : List Line} (h : EndsBody depth rest) (body : List Statement) :
    EndsStatement depth ((bodyLines depth body).map Line.unplaced ++ rest) := by
  cases body with
  | nil => exact fun l hl => ⟨(h l hl).le, fun hdepth => absurd hdepth (h l hl).ne⟩
  | cons s others =>
    obtain ⟨heading, more, hlines, hheading⟩ := s.exists_lines_cons depth
    rw [bodyLines, List.map_append, hlines]
    rintro l hl
    obtain rfl := Option.some.inj hl
    exact ⟨Nat.le_refl _, fun _ => hheading⟩

/-- The lines of an else-body, if there is one. -/
def elseLines (depth : Nat) (body : List Statement) : List Line :=
  if body.isEmpty then [] else ⟨depth, .otherwise⟩ :: bodyLines (depth + 1) body

/-- An else-body is not as deep as the body before it, and neither is what follows it. -/
theorem EndsStatement.endsBody_else {depth : Nat} {rest : List Line} (h : EndsStatement depth rest) (body : List Statement) :
    EndsBody (depth + 1) ((elseLines depth body).map Line.unplaced ++ rest) := by
  cases body with
  | nil => exact h.endsBody
  | cons s others =>
    rintro l hl
    obtain rfl := Option.some.inj hl
    exact Nat.lt_succ_self depth

/-- No line that follows a statement is the first one of its else-body. -/
theorem EndsStatement.ne_otherwise {depth : Nat} {rest more : List Line} (h : EndsStatement depth rest) :
    rest ≠ (⟨depth, .otherwise⟩ : Line) :: more := by
  rintro rfl
  exact (h _ rfl).2 rfl rfl

mutual

/-- A statement is known from its lines, whatever follows that is not deeper and begins no else-body of it. -/
theorem Statement.unplaced_of_lines {depth : Nat} (s s' : Statement) {rest rest' : List Line} (hrest : EndsStatement depth rest)
    (hrest' : EndsStatement depth rest')
    (h : (s.lines depth).map Line.unplaced ++ rest = (s'.lines depth).map Line.unplaced ++ rest') :
    s.unplaced = s'.unplaced ∧ rest = rest' := by
  cases s with
  | action a guard position =>
    cases s' with
    | action a' guard' position' =>
      obtain ⟨hline, hrests⟩ := List.cons.inj h
      obtain ⟨ha, hguard⟩ := Heading.action.inj (congrArg Line.heading hline)
      exact ⟨by rw [Statement.unplaced, Statement.unplaced, ha, hguard], hrests⟩
    | loop => cases congrArg Line.heading (List.head_eq_of_cons_eq h)
    | branch => cases congrArg Line.heading (List.head_eq_of_cons_eq h)
  | loop condition body guard position =>
    cases s' with
    | action => cases congrArg Line.heading (List.head_eq_of_cons_eq h)
    | loop condition' body' guard' position' =>
      obtain ⟨hline, hbodies⟩ := List.cons.inj h
      obtain ⟨hcondition, hguard⟩ := Heading.loop.inj (congrArg Line.heading hline)
      obtain ⟨hbody, hrests⟩ := unplacedBody_of_lines body body' hrest.endsBody hrest'.endsBody hbodies
      exact ⟨by rw [Statement.unplaced, Statement.unplaced, hcondition, hbody, hguard], hrests⟩
    | branch => cases congrArg Line.heading (List.head_eq_of_cons_eq h)
  | branch condition thenBody elseBody guard position =>
    cases s' with
    | action => cases congrArg Line.heading (List.head_eq_of_cons_eq h)
    | loop => cases congrArg Line.heading (List.head_eq_of_cons_eq h)
    | branch condition' thenBody' elseBody' guard' position' =>
      obtain ⟨hline, hbodies⟩ := List.cons.inj h
      obtain ⟨hcondition, hguard⟩ := Heading.branch.inj (congrArg Line.heading hline)
      have hsplit (more : List Line) (thenBody elseBody : List Statement) :
          (bodyLines (depth + 1) thenBody ++ elseLines depth elseBody).map Line.unplaced ++ more =
            (bodyLines (depth + 1) thenBody).map Line.unplaced ++ ((elseLines depth elseBody).map Line.unplaced ++ more) := by
        rw [List.map_append, List.append_assoc]
      obtain ⟨hthen, helses⟩ := unplacedBody_of_lines thenBody thenBody' (hrest.endsBody_else elseBody)
        (hrest'.endsBody_else elseBody') ((hsplit rest thenBody elseBody).symm.trans (hbodies.trans (hsplit rest' _ _)))
      -- an else-body begins with a line that nothing behind the statement may be
      have helse : unplacedBody elseBody = unplacedBody elseBody' ∧ rest = rest' := by
        cases elseBody with
        | nil =>
          cases elseBody' with
          | nil => exact ⟨rfl, helses⟩
          | cons => exact absurd helses hrest.ne_otherwise
        | cons s others =>
          cases elseBody' with
          | nil => exact absurd helses.symm hrest'.ne_otherwise
          | cons s' others' =>
            exact unplacedBody_of_lines (s :: others) (s' :: others') hrest.endsBody hrest'.endsBody
              (List.tail_eq_of_cons_eq helses)
      exact ⟨by rw [Statement.unplaced, Statement.unplaced, hcondition, hthen, helse.1, hguard], helse.2⟩

/-- A body is known from its lines, whatever follows that is not as deep. -/
theorem unplacedBody_of_lines {depth : Nat} (body body' : List Statement) {rest rest' : List Line} (hrest : EndsBody depth rest)
    (hrest' : EndsBody depth rest')
    (h : (bodyLines depth body).map Line.unplaced ++ rest = (bodyLines depth body').map Line.unplaced ++ rest') :
    unplacedBody body = unplacedBody body' ∧ rest = rest' := by
  cases body with
  | nil =>
    cases body' with
    | nil => exact ⟨rfl, h⟩
    | cons s' others' =>
      obtain ⟨heading, more, hlines, -⟩ := s'.exists_lines_cons depth
      rw [bodyLines, bodyLines, List.map_append, hlines] at h
      obtain rfl : rest = _ := h
      exact absurd (hrest _ rfl) (lt_irrefl depth)
  | cons s others =>
    cases body' with
    | nil =>
      obtain ⟨heading, more, hlines, -⟩ := s.exists_lines_cons depth
      rw [bodyLines, bodyLines, List.map_append, hlines] at h
      obtain rfl : _ = rest' := h
      exact absurd (hrest' _ rfl) (lt_irrefl depth)
    | cons s' others' =>
      rw [bodyLines, bodyLines, List.map_append, List.map_append, List.append_assoc, List.append_assoc] at h
      obtain ⟨hs, hothers⟩ := Statement.unplaced_of_lines s s' (hrest.endsStatement others) (hrest'.endsStatement others') h
      obtain ⟨hbody, hrests⟩ := unplacedBody_of_lines others others' hrest hrest' hothers
      exact ⟨by rw [unplacedBody, unplacedBody, hs, hbody], hrests⟩

end

/-- The lines of some procedures are those of the first one and those of the rest. -/
theorem lines_procedures_cons (p : Procedure) (rest : List Procedure) :
    ((p :: rest).flatMap Procedure.lines).map Line.unplaced = ⟨0, .procedure p.name⟩ ::
      ((bodyLines 1 p.body).map Line.unplaced ++ (rest.flatMap Procedure.lines).map Line.unplaced) := by
  rw [List.flatMap_cons, List.map_append, Procedure.lines, List.map_cons]
  rfl

/-- Procedures are known from their lines. -/
theorem map_unplaced_of_lines (ps ps' : List Procedure)
    (h : (ps.flatMap Procedure.lines).map Line.unplaced = (ps'.flatMap Procedure.lines).map Line.unplaced) :
    ps.map Procedure.unplaced = ps'.map Procedure.unplaced := by
  -- a procedure begins at depth 0, so it ends the body before it
  have hends (ps : List Procedure) : EndsBody 1 ((ps.flatMap Procedure.lines).map Line.unplaced) := by
    cases ps with
    | nil => exact fun l hl => absurd hl (Option.not_mem_none l)
    | cons p rest =>
      rw [lines_procedures_cons]
      rintro l hl
      obtain rfl := Option.some.inj hl
      exact Nat.zero_lt_one
  induction ps generalizing ps' with
  | nil =>
    cases ps' with
    | nil => rfl
    | cons p' rest' =>
      rw [lines_procedures_cons] at h
      exact absurd h (List.cons_ne_nil _ _).symm
  | cons p rest ih =>
    cases ps' with
    | nil =>
      rw [lines_procedures_cons] at h
      exact absurd h (List.cons_ne_nil _ _)
    | cons p' rest' =>
      rw [lines_procedures_cons, lines_procedures_cons] at h
      obtain ⟨hline, hbodies⟩ := List.cons.inj h
      have hname := Heading.procedure.inj (congrArg Line.heading hline)
      obtain ⟨hbody, hrests⟩ := unplacedBody_of_lines p.body p'.body (hends rest) (hends rest') hbodies
      rw [List.map_cons, List.map_cons, Procedure.unplaced, Procedure.unplaced, hname, hbody, ih rest' hrests]

/-! ## The names on the lines -/

mutual

/-- The lines of a statement are proper if the names it calls are words. -/
theorem Statement.proper_lines (depth : Nat) (s : Statement) (h : ∀ name ∈ s.calls, IsWordText name) :
    ∀ l ∈ s.lines depth, l.heading.Proper := by
  cases s with
  | action a guard position =>
    refine List.forall_mem_singleton.2 ?_
    cases a with
    | call name => exact h name (.head _)
    | _ => trivial
  | loop condition body guard position =>
    exact List.forall_mem_cons.2 ⟨trivial, proper_bodyLines (depth + 1) body h⟩
  | branch condition thenBody elseBody guard position =>
    rw [Statement.calls, List.forall_mem_append] at h
    have hthen := proper_bodyLines (depth + 1) thenBody h.1
    have helse := proper_bodyLines (depth + 1) elseBody h.2
    rw [Statement.lines, List.forall_mem_append, List.forall_mem_cons]
    refine ⟨⟨trivial, hthen⟩, ?_⟩
    split
    · exact List.forall_mem_nil _
    · exact List.forall_mem_cons.2 ⟨trivial, helse⟩

/-- The lines of a body are proper if the names it calls are words. -/
theorem proper_bodyLines (depth : Nat) (body : List Statement) (h : ∀ name ∈ bodyCalls body, IsWordText name) :
    ∀ l ∈ bodyLines depth body, l.heading.Proper := by
  cases body with
  | nil => exact List.forall_mem_nil _
  | cons s rest =>
    rw [bodyCalls, List.forall_mem_append] at h
    exact List.forall_mem_append.2 ⟨s.proper_lines depth h.1, proper_bodyLines depth rest h.2⟩

end

/-- Where the names in a program are words, so are those on its lines. -/
theorem ProcedureTable.proper_lines {t : ProcedureTable} (h : ∀ name ∈ t.names ++ t.calls, IsWordText name) :
    ∀ l ∈ t.lines, l.heading.Proper := by
  rw [List.forall_mem_append] at h
  intro l hl
  obtain ⟨p, hp, hl⟩ := List.mem_flatMap.1 hl
  rcases List.mem_cons.1 hl with rfl | hl
  · exact h.1 p.name (List.mem_map_of_mem hp)
  · refine proper_bodyLines 1 p.body (fun name hname => h.2 name ?_) l hl
    exact List.mem_append_left _ (List.mem_flatMap.2 ⟨p, hp, hname⟩)

/-! ## Positions are not printed -/

/-- An action prints the same without positions. -/
theorem Action.text_unplaced (a : Action) : a.unplaced.text = a.text := by cases a <;> rfl

/-- A guard prints the same without positions. -/
theorem guardText_map_unplaced (guard : Option Condition) : guardText (guard.map Condition.unplaced) = guardText guard := by
  cases guard <;> rfl

/-- The head of a loop prints the same without positions. -/
theorem loopHeader_map_unplaced (condition : Option Condition) :
    loopHeader (condition.map Condition.unplaced) = loopHeader condition := by
  cases condition <;> rfl

mutual

/-- A statement prints the same without positions. -/
theorem Statement.render_unplaced (depth : Nat) (s : Statement) : s.unplaced.render depth = s.render depth := by
  cases s with
  | action a guard position =>
    rw [Statement.unplaced, Statement.render, Statement.render, Action.text_unplaced, guardText_map_unplaced]
  | loop condition body guard position =>
    rw [Statement.unplaced, Statement.render, Statement.render, loopHeader_map_unplaced, guardText_map_unplaced,
      renderBody_unplaced (depth + 1) body]
  | branch condition thenBody elseBody guard position =>
    have hcondition : condition.unplaced.text = condition.text := rfl
    have hempty : (unplacedBody elseBody).isEmpty = elseBody.isEmpty := by cases elseBody <;> rfl
    rw [Statement.unplaced, Statement.render, Statement.render, hcondition, hempty, guardText_map_unplaced,
      renderBody_unplaced (depth + 1) thenBody, renderBody_unplaced (depth + 1) elseBody]

/-- A body prints the same without positions. -/
theorem renderBody_unplaced (depth : Nat) (body : List Statement) : renderBody depth (unplacedBody body) = renderBody depth body := by
  cases body with
  | nil => rfl
  | cons s rest => rw [unplacedBody, renderBody, renderBody, s.render_unplaced depth, renderBody_unplaced depth rest]

end

/-- A program prints the same without positions. -/
theorem ProcedureTable.render_unplaced (t : ProcedureTable) : t.unplaced.render = t.render := by
  have hprocedure : Procedure.render ∘ Procedure.unplaced = Procedure.render := by
    funext p
    rw [Function.comp_apply, Procedure.unplaced, Procedure.render, Procedure.render, renderBody_unplaced]
  rw [render, render, unplaced, List.map_map, hprocedure]

/-! ## Programs known from their texts -/

/-- Programs are the same up to positions if their procedures are. -/
theorem ProcedureTable.unplaced_eq_unplaced_iff {t u : ProcedureTable} :
    t.unplaced = u.unplaced ↔ t.procedures.map Procedure.unplaced = u.procedures.map Procedure.unplaced := by
  constructor
  · exact congrArg procedures
  · intro h
    simp only [unplaced, h]

/-- Programs that print the same are the same up to positions, if their names are words. -/
theorem ProcedureTable.unplaced_of_render {t u : ProcedureTable} (ht : ∀ name ∈ t.names ++ t.calls, IsWordText name)
    (hu : ∀ name ∈ u.names ++ u.calls, IsWordText name) (h : t.render = u.render) : t.unplaced = u.unplaced := by
  have hchars : t.lines.flatMap Line.chars = u.lines.flatMap Line.chars := by rw [← t.toList_render, h, u.toList_render]
  have hlines := Line.map_unplaced_of_chars (proper_lines ht) (proper_lines hu) hchars
  exact unplaced_eq_unplaced_iff.2 (map_unplaced_of_lines t.procedures u.procedures hlines)

/-- Programs that are the same up to positions print the same. -/
theorem ProcedureTable.render_of_unplaced {t u : ProcedureTable} (h : t.unplaced = u.unplaced) : t.render = u.render := by
  rw [← t.render_unplaced, h, u.render_unplaced]

/-- Two sources that are accepted are printed alike exactly if their programs are equal up to positions: the parser names
procedures and calls by words. -/
theorem render_eq_iff_of_parseSource {a b : List UInt8} {t u : ProcedureTable} (ha : parseSource a = .ok t)
    (hb : parseSource b = .ok u) : t.render = u.render ↔ t.unplaced = u.unplaced :=
  ⟨ProcedureTable.unplaced_of_render (isWordText_calls_of_parseSource ha) (isWordText_calls_of_parseSource hb),
    ProcedureTable.render_of_unplaced⟩

/-- A printed program loses nothing but positions: two programs whose procedures and calls are named by words are printed alike
exactly if they are equal up to positions. -/
theorem ProcedureTable.render_eq_render_iff {t u : ProcedureTable} (ht : ∀ name ∈ t.names ++ t.calls, IsWordText name)
    (hu : ∀ name ∈ u.names ++ u.calls, IsWordText name) : t.render = u.render ↔ t.unplaced = u.unplaced :=
  ⟨unplaced_of_render ht hu, render_of_unplaced⟩

/-- A program whose text looks like a guard and like other lines. Its guards stand on a loop, a text and a branch; what the branch
does otherwise and what is done behind it are given. -/
def pretender (p : Position) (otherwise behind : List Statement) : ProcedureTable where
  procedures := [
    ⟨"main", [
      .loop (some ⟨⟨.register .rax, p⟩, .less, ⟨.immediate (-1), p⟩, p⟩)
        [.action (.printText "a\" if rax < 1\n  else\n") (some ⟨⟨.register .r8, p⟩, .equal, ⟨.immediate 1, p⟩, p⟩) p]
        (some ⟨⟨.register .rcx, p⟩, .lessEqual, ⟨.immediate 9, p⟩, p⟩) p,
      .branch ⟨⟨.register .rax, p⟩, .notEqual, ⟨.register .rbx, p⟩, p⟩
        [.action (.update .rax .sub ⟨.immediate (-5), p⟩) none p] otherwise
        (some ⟨⟨.immediate 0, p⟩, .greaterEqual, ⟨.register .rdx, p⟩, p⟩) p] ++ behind, p⟩,
    ⟨"helper", [], p⟩]

example : (pretender .origin [.action (.call "helper") none .origin] []).render =
    "PROCEDURE main\n  loop (rax < -1) if rcx <= 9\n    << \"a\\\" if rax < 1\\n  else\\n\" if r8 == 1\n" ++
    "  branch (rax != rbx) if 0 >= rdx\n    rax -= -5\n  else\n    call helper\nPROCEDURE helper\n" := by decide +kernel

/-- It is printed alike wherever its parts stand, and not alike if it calls behind the branch instead. -/
theorem ProcedureTable.render_eq_render_iff_pretender :
    (pretender .origin [.action (.call "helper") none .origin] []).render =
        (pretender .unknown [.action (.call "helper") none .unknown] []).render ∧
      (pretender .origin [.action (.call "helper") none .origin] []).render ≠
        (pretender .origin [] [.action (.call "helper") none .origin]).render := by
  have horigin : ∀ name ∈ (pretender .origin [.action (.call "helper") none .origin] []).names ++
      (pretender .origin [.action (.call "helper") none .origin] []).calls, IsWordText name := by decide
  have hunknown : ∀ name ∈ (pretender .unknown [.action (.call "helper") none .unknown] []).names ++
      (pretender .unknown [.action (.call "helper") none .unknown] []).calls, IsWordText name := by decide
  have hbehind : ∀ name ∈ (pretender .origin [] [.action (.call "helper") none .origin]).names ++
      (pretender .origin [] [.action (.call "helper") none .origin]).calls, IsWordText name := by decide
  refine ⟨(render_eq_render_iff horigin hunknown).2 rfl, fun h => ?_⟩
  have hunplaced := (render_eq_render_iff horigin hbehind).1 h
  exact absurd (congrArg (fun t => t.procedures.map fun p => p.body.length) hunplaced) (by decide)

end RegisterCompiler
