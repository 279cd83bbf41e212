import RegisterCompiler.Proofs.Session.Bodies

/-!
# Compiling programs

A program without faults makes a session write the pieces of the two passes (`yields_program`): its procedures one after another,
the code that a host enters, and at last the targets of the calls, when every procedure has its offset.
-/

namespace RegisterCompiler

open X64 (Hole)

/-- A session that has gone on by writing pieces and begun procedures, and keeps the calls open. -/
structure Session.Went (s after : Session) (pieces : List Piece) (begun : List (String × Nat)) : Prop where
  wrote : Session.Wrote { s with procedures := s.procedures ++ begun } after pieces
  calls : after.calls = s.calls ++ openHoles Piece.openCall? s.count s.offset pieces

namespace Session.Went

variable {s after later : Session} {pieces pieces' : List Piece} {begun begun' : List (String × Nat)}

/-- Pieces for which nothing is kept open may be written at any time. -/
theorem of_closed (h : s.Wrote after pieces) (h' : s.SameOpen after) (hc : ∀ p ∈ pieces, p.Closed) : s.Went after pieces [] :=
  ⟨⟨h.items, h.reach, h.intrinsics, by rw [h.procedures, List.append_nil]⟩, (Grew.of_closed h h' hc).calls⟩

theorem refl (s : Session) : s.Went s [] [] := of_closed (.refl s) (.refl s) fun _ hp => absurd hp List.not_mem_nil

/-- A session that has gone on stands behind the pieces. -/
theorem offset (h : s.Went after pieces begun) : after.offset = s.offset + piecesSize pieces := h.wrote.offset

theorem trans (h : s.Went after pieces begun) (h' : after.Went later pieces' begun') :
    s.Went later (pieces ++ pieces') (begun ++ begun') := by
  have hwrote : Session.Wrote { s with procedures := s.procedures ++ (begun ++ begun') }
      { after with procedures := after.procedures ++ begun' } pieces := by
    refine ⟨h.wrote.items, h.wrote.reach, h.wrote.intrinsics, ?_⟩
    rw [h.wrote.procedures, List.append_assoc]
  refine ⟨hwrote.trans h'.wrote, ?_⟩
  have hcount : after.count = s.count + pieces.length := h.wrote.count
  rw [h'.calls, h.calls, hcount, h.offset, openHoles_append, List.append_assoc]

end Session.Went

namespace Compile

variable {total : Nat} {s : Session}

/-- The open jumps of the pieces of statements are those outside every loop, the breaks before the continues. -/
theorem map_snd_jumps_add (intrinsics : Intrinsics) (index offset start : Nat) (statements : List Statement) :
    ((({} : LoopContext).add index offset (bodyPieces intrinsics .unknown start statements)).breaks ++
      (({} : LoopContext).add index offset (bodyPieces intrinsics .unknown start statements)).continues).map Prod.snd =
      outsideLoops .breakLoop statements ++ outsideLoops .continueLoop statements := by
  rw [LoopContext.add, List.map_append, List.nil_append, List.nil_append, map_snd_openHoles, map_snd_openHoles,
    picked_bodyPieces picksJumps_openStop, picked_bodyPieces picksJumps_openStart]

/-- The earliest open jump of the pieces of a body is its earliest jump outside every loop. -/
theorem firstStray?_add (intrinsics : Intrinsics) (index offset start : Nat) (p : Procedure) :
    (({} : LoopContext).add index offset (bodyPieces intrinsics .unknown start p.body)).firstStray? = earliest? p.strays :=
  congrArg earliest? (map_snd_jumps_add intrinsics index offset start p.body)

/-- A procedure writes its body and a return, unless a jump of its belongs to no loop. -/
theorem yields_procedure (p : Procedure) (s : Session) (hroom : s.offset + p.size s.intrinsics ≤ total) :
    Yields total (procedure p) s p.faults fun start after =>
      start = s.offset ∧ s.Went after (p.pieces s.intrinsics .unknown s.offset) [(p.name, s.offset)] := by
  unfold procedure Procedure.faults
  unfold Procedure.size at hroom
  refine Yields.bind_right yields_offset fun start t ht => ?_
  obtain ⟨rfl, rfl⟩ := ht
  obtain ⟨u, hu⟩ : ∃ u : Session, u = { t with procedures := t.procedures ++ [(p.name, t.offset)] } := ⟨_, rfl⟩
  have hoffset : u.offset = t.offset := hu ▸ rfl
  have hintrinsics : u.intrinsics = t.intrinsics := hu ▸ rfl
  have hbegin : Yields total (modify fun s => { s with procedures := s.procedures ++ [(p.name, t.offset)] }) t []
      fun _ after => after = u := .of_run rfl hu.symm
  refine Yields.bind_right hbegin fun _ v hv => ?_
  obtain rfl := hv
  obtain ⟨pieces, hpieces⟩ : ∃ pieces, pieces = bodyPieces t.intrinsics .unknown t.offset p.body := ⟨_, rfl⟩
  have hin : Yields total (body p.body) { v with loops := {} :: v.loops } (bodyFaults p.body) fun _ after =>
      Session.Grew { v with loops := {} :: v.loops } after pieces := by
    rw [hpieces, ← hoffset]
    exact writes_body p.body t.intrinsics _ hintrinsics (by show v.offset + _ ≤ _; omega)
  refine Yields.bind (yields_inContext hin) fun context w hw => ?_
  obtain ⟨rfl, hwrote, hcalls, hloops⟩ := hw
  rw [hpieces, firstStray?_add]
  cases earliest? p.strays with
  | some position => exact .throw fun a => nofun
  | none =>
    refine Yields.bind_right (yields_emit [.ret]) fun _ x hx => .pure ⟨rfl, ?_⟩
    have hbody : t.Went w pieces [(p.name, t.offset)] := by
      refine ⟨hu ▸ hwrote, ?_⟩
      rw [hcalls, hu]
      rfl
    have hret := Session.Went.of_closed hx.1 hx.2 (closed_plainPieces [.ret])
    rw [hpieces] at hbody
    exact hbody.trans hret

/-- Procedures are written one after another. -/
theorem yields_procedures (ps : List Procedure) (s : Session) (hroom : s.offset + proceduresSize s.intrinsics ps ≤ total) :
    Yields total (ps.forM fun p => discard (procedure p)) s (ps.flatMap Procedure.faults) fun _ after =>
      s.Went after (proceduresPieces s.intrinsics .unknown s.offset ps) (procedureOffsets s.intrinsics s.offset ps) := by
  induction ps generalizing s with
  | nil => exact .pure (.refl s)
  | cons p rest ih =>
    rw [proceduresSize, List.map_cons, List.sum_cons, ← Nat.add_assoc] at hroom
    rw [List.flatMap_cons]
    have hdiscard : Yields total (discard (procedure p)) s p.faults fun _ after =>
        s.Went after (p.pieces s.intrinsics .unknown s.offset) [(p.name, s.offset)] :=
      Yields.bind_left (yields_procedure p s (by omega)) fun start t ht => .pure ht.2
    refine Yields.bind hdiscard fun _ t ht => ?_
    have hoffset : t.offset = s.offset + p.size s.intrinsics := by rw [ht.offset, Procedure.piecesSize_pieces]
    have hintrinsics : t.intrinsics = s.intrinsics := ht.wrote.intrinsics
    have hrest := ih t (by rw [hintrinsics, hoffset]; exact hroom)
    rw [hintrinsics, hoffset] at hrest
    exact hrest.mono fun _ after ha => ht.trans ha

/-- The code that a host enters is written with its call left open. -/
theorem yields_trampoline (s : Session) :
    Yields total trampoline s [] fun entry after => entry = s.offset ∧ s.Went after (trampolinePieces .unknown) [] := by
  unfold trampoline
  refine Yields.bind yields_offset fun entry t ht => ?_
  obtain ⟨rfl, rfl⟩ := ht
  refine Yields.bind (yields_emit X64.pushAll) fun _ u hu => ?_
  refine Yields.bind (yields_reserve .call (.call (.procedure mainName)) rfl nofun) fun hole v hv => ?_
  obtain ⟨rfl, hwrote, hopen⟩ := hv
  obtain ⟨w, hw⟩ : ∃ w : Session, w = { v with calls := v.calls ++ [(⟨u.count, u.offset⟩, mainName)] } := ⟨_, rfl⟩
  have hcall : Yields total (modify fun s => { s with calls := s.calls ++ [(⟨u.count, u.offset⟩, mainName)] }) v []
      fun _ after => after = w := .of_run rfl hw.symm
  refine Yields.bind_right hcall fun _ x hx => ?_
  obtain rfl := hx
  have hmain : u.Went x [.call (.procedure mainName)] [] := by
    refine ⟨⟨?_, hwrote.reach, ?_, ?_⟩, ?_⟩
    · rw [hw]
      exact hwrote.items
    · rw [hw]
      exact hwrote.intrinsics
    · rw [hw, List.append_nil]
      exact hwrote.procedures
    · rw [hw]
      simp [hopen.calls, openHoles, Piece.openCall?]
  refine Yields.bind_right (yields_emit _) fun _ y hy => .pure ⟨rfl, ?_⟩
  have hall := (Session.Went.of_closed hu.1 hu.2 (closed_plainPieces _)).trans
    (hmain.trans (.of_closed hy.1 hy.2 (closed_plainPieces _)))
  rw [List.append_nil, List.append_nil, List.singleton_append] at hall
  exact hall

/-! ## The targets of the calls -/

/-- A procedure begins at or before the end of the procedures. -/
theorem le_of_mem_procedureOffsets {intrinsics : Intrinsics} {start : Nat} {ps : List Procedure} {b : String × Nat}
    (h : b ∈ procedureOffsets intrinsics start ps) : b.2 ≤ start + proceduresSize intrinsics ps := by
  induction ps generalizing start with
  | nil => exact absurd h List.not_mem_nil
  | cons p rest ih =>
    rw [proceduresSize, List.map_cons, List.sum_cons]
    rcases List.mem_cons.1 h with rfl | h
    · exact Nat.le_add_right _ _
    · have := ih h
      unfold proceduresSize at this
      omega

/-- The offsets of procedures are listed by their names. -/
theorem map_fst_procedureOffsets (intrinsics : Intrinsics) (start : Nat) (ps : List Procedure) :
    (procedureOffsets intrinsics start ps).map Prod.fst = ps.map Procedure.name := by
  induction ps generalizing start with
  | nil => rfl
  | cons p rest ih => rw [procedureOffsets, List.map_cons, List.map_cons, ih]

/-- A procedure has an offset exactly if its name is in the table. -/
theorem find?_offsets_eq_none (table : ProcedureTable) (intrinsics : Intrinsics) (name : String) :
    ((table.offsets intrinsics).find? fun p => p.1 == name) = none ↔ name ∉ table.names := by
  rw [ProcedureTable.names, ← map_fst_procedureOffsets intrinsics 0, List.find?_eq_none]
  simp only [ProcedureTable.offsets, beq_iff_eq, List.mem_map, not_exists, not_and]

/-- The session in which every procedure has its offset. -/
def begun (table : ProcedureTable) (intrinsics : Intrinsics) : Session :=
  { Session.start intrinsics with procedures := table.offsets intrinsics }

/-- A call is filled if its procedure exists. -/
theorem yields_resolveCall (table : ProcedureTable) {intrinsics : Intrinsics} {before behind : List Piece} {piece : Piece}
    {name : String} (h : (begun table intrinsics).Wrote s (before ++ piece :: behind)) (hpick : piece.openCall? = some name)
    (hstart : table.entry intrinsics ≤ s.offset) (hroom : s.offset ≤ total) :
    Yields total (resolveCall (⟨(begun table intrinsics).count + before.length,
      (begun table intrinsics).offset + piecesSize before⟩, name)) s (table.callFaults name) fun _ after =>
      (begun table intrinsics).Wrote after (before ++ piece.settleCall (table.offset? intrinsics) :: behind) ∧
        s.SameOpen after := by
  unfold Piece.openCall? at hpick
  split at hpick
  case h_2 => cases hpick
  rename_i called
  obtain rfl := Option.some.inj hpick
  have hprocedures : s.procedures = table.offsets intrinsics := h.procedures
  unfold resolveCall
  refine Yields.bind_right yields_get fun t t' ht => ?_
  obtain ⟨rfl, rfl⟩ := ht
  rw [hprocedures]
  simp only [Piece.settleCall, ProcedureTable.offset?]
  cases hfind : (table.offsets intrinsics).find? fun p => p.1 == called with
  | none =>
    have hname := (find?_offsets_eq_none table intrinsics called).1 hfind
    rw [ProcedureTable.callFaults, if_neg hname]
    exact .throw fun a h => by cases h
  | some entry =>
    have hname : called ∈ table.names := by
      by_cases hname : called ∈ table.names
      · exact hname
      · rw [(find?_offsets_eq_none table intrinsics called).2 hname] at hfind
        cases hfind
    have htarget : entry.2 ≤ t'.offset := by
      have := le_of_mem_procedureOffsets (List.mem_of_find?_eq_some hfind)
      unfold ProcedureTable.entry at hstart
      omega
    rw [ProcedureTable.callFaults, if_pos hname]
    exact yields_fill (.call (.procedure called)) (.call (.offset entry.2)) h rfl rfl rfl (fun d => rfl) rfl htarget hroom

/-- Every call is filled, in order, up to one whose procedure does not exist. -/
theorem yields_resolveCalls (table : ProcedureTable) {intrinsics : Intrinsics} {pieces : List Piece}
    (h : (begun table intrinsics).Wrote s pieces)
    (hcalls : s.calls = openHoles Piece.openCall? (begun table intrinsics).count (begun table intrinsics).offset pieces)
    (hstart : table.entry intrinsics ≤ s.offset) (hroom : s.offset ≤ total) :
    Yields total resolveCalls s ((pieces.filterMap Piece.openCall?).flatMap table.callFaults) fun _ after =>
      (begun table intrinsics).Wrote after (pieces.map (Piece.settleCall (table.offset? intrinsics))) := by
  unfold resolveCalls
  refine Yields.bind_right yields_get fun t' t ht => ?_
  obtain ⟨rfl, rfl⟩ := ht
  obtain ⟨u, hu⟩ : ∃ u : Session, u = { t with calls := [] } := ⟨_, rfl⟩
  have hforget : Yields total (modify fun s => { s with calls := [] }) t [] fun _ after => after = u := .of_run rfl hu.symm
  refine Yields.bind_right hforget fun _ v hv => ?_
  obtain rfl := hv
  have hoffset : v.offset = t.offset := hu ▸ rfl
  have hwrote : (begun table intrinsics).Wrote v ([] ++ pieces ++ []) := by
    rw [List.append_nil, List.nil_append, hu]
    exact h.of_assembler rfl rfl rfl
  rw [hcalls]
  have hkeep : ∀ p : Piece, p.openCall? = none → p.settleCall (table.offset? intrinsics) = p := by
    intro p hp
    unfold Piece.settleCall
    split
    · cases hp
    · rfl
  have hall := yields_forM_openHoles total Piece.openCall? resolveCall table.callFaults
    (Piece.settleCall (table.offset? intrinsics)) (Piece.size_settleCall _) hkeep
    (fun s before p name behind hs hsize hp => yields_resolveCall table hs hp (hsize ▸ hstart) (hsize ▸ hroom)) pieces [] [] v
    hwrote hoffset
  refine Yields.mono hall fun _ after ha => ?_
  simpa using ha.1

/-- A program without faults writes the pieces of the two passes. -/
theorem yields_program (table : ProcedureTable) (intrinsics : Intrinsics) :
    Yields (table.codeSize intrinsics) (program table) (Session.start intrinsics) table.faults fun entry after =>
      entry = table.entry intrinsics ∧ (begun table intrinsics).Wrote after (table.pieces intrinsics) := by
  unfold program ProcedureTable.faults
  obtain ⟨s, hs⟩ : ∃ s, s = Session.start intrinsics := ⟨_, rfl⟩
  have hintrinsics : s.intrinsics = intrinsics := hs ▸ rfl
  have hzero : s.offset = 0 := hs ▸ rfl
  rw [← hs]
  refine Yields.bind (yields_procedures table.procedures s ?_) fun _ t ht => ?_
  · rw [hintrinsics, hzero, Nat.zero_add]
    exact Nat.le_add_right _ _
  rw [hintrinsics, hzero] at ht
  have hentry : t.offset = table.entry intrinsics := by
    rw [ht.offset, piecesSize_proceduresPieces, hzero, Nat.zero_add]
    rfl
  refine Yields.bind_right (yields_trampoline t) fun entry u hu => ?_
  obtain ⟨rfl, hu⟩ := hu
  have hwent := ht.trans hu
  have hwrote : (begun table intrinsics).Wrote u
      (proceduresPieces intrinsics .unknown 0 table.procedures ++ trampolinePieces .unknown) := by
    have := hwent.wrote
    rw [hs, List.append_nil] at this
    exact this
  have hcalls : u.calls = openHoles Piece.openCall? (begun table intrinsics).count (begun table intrinsics).offset
      (proceduresPieces intrinsics .unknown 0 table.procedures ++ trampolinePieces .unknown) := by
    have := hwent.calls
    rw [hs] at this
    exact this
  have hstop : u.offset = table.codeSize intrinsics := by
    rw [hu.offset, hentry, piecesSize_trampolinePieces]
    rfl
  have hresolve := yields_resolveCalls table hwrote hcalls (by rw [hstop]; exact Nat.le_add_right _ _) (Nat.le_of_eq hstop)
  have hleads := Surroundings.leads_settleCall (table.offset? intrinsics)
  rw [List.filterMap_append, calls_proceduresPieces, calls_trampolinePieces, List.map_append, map_proceduresPieces hleads,
    map_trampolinePieces hleads] at hresolve
  exact Yields.bind_left hresolve fun _ v hv => .pure ⟨hentry, hv⟩

end Compile

end RegisterCompiler
