import RegisterCompiler.Proofs.Rejection
import RegisterCompiler.Proofs.Session.Accounting

/-!
# Where the calls of finished code lead

Every call in finished code leads to an offset that a request for a procedure recorded (`calls_lead_to_requested`). If that request
succeeded, the whole procedure lies there, every target of it known and its return behind it. If it failed the call is not refused: a
procedure is recorded before its body is compiled, and where the body fails without a hole left open, what follows is
called in its place (`CalleesWhole`).
-/

namespace RegisterCompiler

open X64 (Handle Hole HoleKind Item)

/-! ## Pieces by their numbers -/

/-- A piece stands behind the sizes of those before it. -/
theorem getElem?_located (offset : Nat) (pieces : List Piece) (k : Nat) :
    (located offset pieces)[k]? = pieces[k]?.map fun q => (offset + piecesSize (pieces.take k), q) := by
  induction pieces generalizing offset k with
  | nil => rfl
  | cons piece rest ih =>
    cases k with
    | zero => simp
    | succ k => simp [ih, Nat.add_assoc]

/-- The item of a piece is the one written behind the sizes of the pieces before it. -/
theorem getElem?_itemsOf (offset : Nat) (pieces : List Piece) (k : Nat) :
    (itemsOf offset pieces)[k]? = pieces[k]?.map fun q => q.item (offset + piecesSize (pieces.take k)) := by
  rw [itemsOf, List.getElem?_map, getElem?_located, Option.map_map]
  rfl

/-- Each piece is among those with their offsets. -/
theorem mem_located_of_getElem? {pieces : List Piece} {k : Nat} {q : Piece} (h : pieces[k]? = some q) (offset : Nat) :
    (offset + piecesSize (pieces.take k), q) ∈ located offset pieces := by
  refine List.mem_of_getElem? (i := k) ?_
  rw [getElem?_located, h]
  rfl

/-- A piece with its offset is one of the pieces, behind the sizes of those before it. -/
theorem exists_of_mem_located {offset : Nat} {pieces : List Piece} {p : Nat × Piece} (h : p ∈ located offset pieces) :
    ∃ k, pieces[k]? = some p.2 ∧ p.1 = offset + piecesSize (pieces.take k) := by
  obtain ⟨k, hk⟩ := List.mem_iff_getElem?.1 h
  rw [getElem?_located] at hk
  obtain ⟨q, hq, rfl⟩ := Option.map_eq_some_iff.1 hk
  exact ⟨k, hq, rfl⟩

/-- The first items are those of the first pieces. -/
theorem take_itemsOf (offset : Nat) (pieces : List Piece) (k : Nat) :
    (itemsOf offset pieces).take k = itemsOf offset (pieces.take k) := by
  refine List.ext_getElem? fun i => ?_
  rw [List.getElem?_take, getElem?_itemsOf, getElem?_itemsOf, List.getElem?_take]
  split
  · rename_i hi
    rw [List.take_take, Nat.min_eq_left (Nat.le_of_lt hi)]
  · rfl

/-- A piece that is picked has its hole among the open ones. -/
theorem mem_openHoles {β : Type} {kind : HoleKind} {pick : Piece → Option β} {pieces : List Piece} {k : Nat} {q : Piece} {b : β}
    (hq : pieces[k]? = some q) (hb : pick q = some b) (index offset : Nat) :
    ((⟨index + k, offset + piecesSize (pieces.take k)⟩, b) : Hole kind × β) ∈ openHoles pick index offset pieces := by
  obtain ⟨hlt, rfl⟩ := List.getElem?_eq_some_iff.1 hq
  have hsplit : pieces = pieces.take k ++ pieces[k] :: pieces.drop (k + 1) := by
    rw [List.getElem_cons_drop, List.take_append_drop]
  have hlength : (pieces.take k).length = k := List.length_take_of_le (Nat.le_of_lt hlt)
  rw [hsplit, openHoles_append, List.mem_append]
  right
  simp [openHoles, hb, hlength]

/-! ## Recorded procedures -/

/-- A request records a procedure at its beginning or never. -/
theorem Request.procedures_next (r : Request) (s : Session) :
    (r.next s).procedures = (r.begun ⟨s, 0⟩).session.procedures := by
  obtain ⟨loose, hpath⟩ := r.exists_path s 0
  exact Account.Path.procedures hpath

/-- A procedure is recorded by the request for it, at the offset that the session has then. -/
theorem Session.recorded_after {s : Session} {requests : List Request} {b : String × Nat} (h : b ∈ (s.after requests).procedures) :
    b ∈ s.procedures ∨ ∃ front p back, requests = front ++ .procedure p :: back ∧ b = (p.name, (s.after front).offset) := by
  induction requests generalizing s with
  | nil => exact .inl h
  | cons r rest ih =>
    rcases ih h with hnext | ⟨front, p, back, rfl, hb⟩
    · rw [r.procedures_next s] at hnext
      cases r with
      | procedure p =>
        rcases List.mem_append.1 hnext with hmem | hmem
        · exact .inl hmem
        · exact .inr ⟨[], p, rest, rfl, List.mem_singleton.1 hmem⟩
      | _ => exact .inl hnext
    · exact .inr ⟨r :: front, p, back, rfl, hb⟩

/-! ## Procedures that succeeded -/

/-- A request for a procedure that succeeds has written the procedure, with its calls open. -/
theorem Request.wrote_procedure {p : Procedure} {s : Session} (h : (procedure p).outcome s = .ok ()) :
    p.faults = [] ∧ s.Went ((procedure p).next s) (p.pieces s.intrinsics .unknown s.offset) [(p.name, s.offset)] := by
  rw [outcome_procedure] at h
  rw [next_procedure]
  rcases hr : (Compile.procedure p).run s with ⟨e | start, after⟩
  · rw [hr] at h
    cases h
  · obtain ⟨hfaults, -, hwent⟩ := (Compile.yields_procedure p s (Nat.le_refl _)).of_ok hr
    exact ⟨hfaults, hwent⟩

/-- Of the pieces of a procedure without faults, those that are no calls know their targets. -/
theorem Procedure.known_of_faults {p : Procedure} (h : p.faults = []) (intrinsics : Intrinsics) (start : Nat) :
    ∀ q ∈ p.pieces intrinsics .unknown start, q.openCall? = none → q.Known := by
  intro q hq hcall
  have hsound := (Procedure.faults_eq_nil_iff p).1 h
  have hprovides : Surroundings.Provides ⟨none, fun _ => some 0⟩ (outsideLoops .breakLoop p.body) (outsideLoops .continueLoop p.body)
      (bodyCalls p.body) := ⟨fun _ => hsound.inside, fun _ _ => ⟨0, rfl⟩⟩
  have hsettle : q.settleCall (fun _ => some 0) = q := by
    unfold Piece.settleCall
    split
    · cases hcall
    · rfl
  rcases List.mem_append.1 hq with hq | hq
  · have hmem := List.mem_map_of_mem (f := Piece.settleCall fun _ => some 0) hq
    rw [map_bodyPieces (Surroundings.leads_settleCall _), hsettle] at hmem
    exact known_bodyPieces intrinsics start p.body hprovides q hmem
  · obtain rfl := List.mem_singleton.1 hq
    intro target ht
    cases ht

/-- The code of a procedure lies at an offset of finished code: its body and its return, with every target known and within reach,
and every call led to the first procedure of its name. -/
structure Compiled.Holds (c : Compiled) (p : Procedure) (start : Nat) : Prop where
  bytes : (c.code.bytes.drop start).take (p.size c.intrinsics) =
    bytesOf start (p.pieces c.intrinsics ⟨none, c.procedureOffset?⟩ start)
  lands : AllLand start (p.pieces c.intrinsics ⟨none, c.procedureOffset?⟩ start)

/-! ## Pieces that are kept to the end -/

/-- The displacement of an instruction is the only one that leads where it leads, and within reach. -/
theorem displacementTo_eq {d : Int32} {target stop : Nat} (h : (stop : Int) + d.toInt = target) :
    displacementTo target stop = d ∧ InReach target stop := by
  have hd : (target : Int) - stop = d.toInt := by omega
  refine ⟨?_, ?_⟩
  · rw [displacementTo, hd, Int32.ofInt_toInt]
  · rw [InReach, hd]
    exact ⟨d.minValue_le_toInt, d.toInt_le⟩

/-- A piece that a session has written is written for good if it is a call that was led to its procedure, or no call. -/
theorem settled_item {s : Session} {i offset : Nat} {q : Piece} (hsize : X64.itemsSize (s.assembler.items.toList.take i) = offset)
    (hreach : q.Reaches offset) (hcall : ∀ name, q.openCall? = some name → s.Leads i name)
    (hother : q.openCall? = none → q.Known ∧ s.assembler.items.toList[i]? = some (q.item offset)) :
    s.assembler.items.toList[i]? = some ((q.settleCall s.procedureOffset?).item offset) ∧
      (q.settleCall s.procedureOffset?).Lands offset := by
  unfold Piece.settleCall
  split
  · rename_i name
    obtain ⟨d, target, hi, htarget, hd⟩ := hcall name rfl
    rw [hsize] at hd
    obtain ⟨hdisplacement, hinside⟩ := displacementTo_eq hd
    rw [htarget]
    refine ⟨hi.trans ?_, hinside⟩
    rw [← hdisplacement]
    rfl
  · rename_i hnot
    have hnone : q.openCall? = none := by
      unfold Piece.openCall?
      split
      · exact absurd rfl (hnot _)
      · rfl
    obtain ⟨hknown, hi⟩ := hother hnone
    exact ⟨hi, Piece.lands_of_known hreach hknown⟩

section

variable {s t : Session} {pieces : List Piece} {begun : List (String × Nat)}

/-- The items of pieces stand behind those that the session had. -/
theorem getElem?_of_went (h : s.Went t pieces begun) {k : Nat} {q : Piece} (hq : pieces[k]? = some q) :
    t.assembler.items.toList[s.count + k]? = some (q.item (s.offset + piecesSize (pieces.take k))) := by
  have hitems : t.assembler.items.toList = s.assembler.items.toList ++ itemsOf s.offset pieces := h.wrote.items
  rw [hitems, show s.count = s.assembler.items.toList.length from Array.length_toList.symm,
    List.getElem?_append_right (Nat.le_add_right _ _), Nat.add_sub_cancel_left, getElem?_itemsOf, hq]
  rfl

/-- What stands in front of a piece takes up the same bytes as the session goes on. -/
theorem itemsSize_of_went (h : s.Went t pieces begun) {f : Session} (hf : t.Onward f) {k : Nat} (hk : k ≤ pieces.length) :
    X64.itemsSize (f.assembler.items.toList.take (s.count + k)) = s.offset + piecesSize (pieces.take k) := by
  have hitems : t.assembler.items.toList = s.assembler.items.toList ++ itemsOf s.offset pieces := h.wrote.items
  have hcount : s.count = s.assembler.items.toList.length := Array.length_toList.symm
  have hlength : s.count + k ≤ t.assembler.items.toList.length := by
    rw [hitems, List.length_append, length_itemsOf, hcount]
    omega
  rw [hf.itemsSize_take hlength, hitems, hcount, List.take_length_add_append, take_itemsOf, X64.itemsSize_append, itemsSize_itemsOf,
    ← Session.offset_eq]

variable {loose : Multiset Handle} {back : List Request} {entry : Nat} {c : Compiled}

/-- Where code is finished, a piece that was written on the way is written for good: if it is a call, it was open and has been led to
its procedure since. -/
theorem settled_of_went (h : s.Went t pieces begun) (ht : Account.Sound ⟨t, loose⟩)
    (hknown : ∀ q ∈ pieces, q.openCall? = none → q.Known) (hfinish : (t.after back).finish entry = .ok c) {k : Nat} {q : Piece}
    (hq : pieces[k]? = some q) :
    (t.after back).assembler.items.toList[s.count + k]? =
        some ((q.settleCall (t.after back).procedureOffset?).item (s.offset + piecesSize (pieces.take k))) ∧
      (q.settleCall (t.after back).procedureOffset?).Lands (s.offset + piecesSize (pieces.take k)) := by
  have honward := Session.onward_after ht back
  have hreach := h.wrote.reach _ (mem_located_of_getElem? hq s.offset)
  have hk := Nat.le_of_lt (List.getElem?_eq_some_iff.1 hq).1
  refine settled_item (itemsSize_of_went h honward hk) hreach (fun name hname => ?_) fun hnone => ?_
  · have hcall : ((⟨s.count + k, s.offset + piecesSize (pieces.take k)⟩, name) : Hole .call × String) ∈ t.calls := by
      rw [h.calls]
      exact List.mem_append_right _ (mem_openHoles hq hname s.count s.offset)
    exact Session.leads_of_finish ht hfinish hcall
  · have hq' := hknown q (List.mem_of_getElem? hq) hnone
    exact ⟨hq', honward.items _ _ (getElem?_of_went h hq) (Piece.isHole_item (Piece.lands_of_known hreach hq'))⟩

/-- Items that stand where pieces were written, each at its offset. -/
theorem slice_eq_itemsOf {items : List Item} {index offset : Nat} {pieces : List Piece}
    (h : ∀ k q, pieces[k]? = some q → items[index + k]? = some (q.item (offset + piecesSize (pieces.take k)))) :
    (items.drop index).take pieces.length = itemsOf offset pieces := by
  refine List.ext_getElem? fun k => ?_
  rw [getElem?_itemsOf, List.getElem?_take]
  split
  · rename_i hk
    rw [List.getElem?_drop, h k _ (List.getElem?_eq_getElem hk), List.getElem?_eq_getElem hk]
    rfl
  · rename_i hk
    rw [List.getElem?_eq_none (Nat.le_of_not_lt hk)]
    rfl

/-- The bytes of items that stand in the middle. -/
theorem bytes_middle {items middle : List Item} {index : Nat} (h : (items.drop index).take middle.length = middle) :
    ((items.flatMap Item.encode).drop (X64.itemsSize (items.take index))).take (X64.itemsSize middle) =
      middle.flatMap Item.encode := by
  have hback : (items.drop index).flatMap Item.encode =
      middle.flatMap Item.encode ++ ((items.drop index).drop middle.length).flatMap Item.encode := by
    conv_lhs => rw [← List.take_append_drop middle.length (items.drop index), h, List.flatMap_append]
  rw [drop_flatMap_encode, hback, ← X64.length_flatMap_encode, List.take_left]

/-- Where code is finished, the pieces that were written on the way lie in it, with their calls led to their procedures. -/
theorem bytes_of_went (h : s.Went t pieces begun) (ht : Account.Sound ⟨t, loose⟩)
    (hknown : ∀ q ∈ pieces, q.openCall? = none → q.Known) (hfinish : (t.after back).finish entry = .ok c) :
    (c.code.bytes.drop s.offset).take (piecesSize pieces) =
        bytesOf s.offset (pieces.map (Piece.settleCall (t.after back).procedureOffset?)) ∧
      AllLand s.offset (pieces.map (Piece.settleCall (t.after back).procedureOffset?)) := by
  obtain ⟨settle, hsettle⟩ : ∃ settle, settle = Piece.settleCall (t.after back).procedureOffset? := ⟨_, rfl⟩
  have hsize : ∀ l : List Piece, piecesSize (l.map settle) = piecesSize l := fun l => piecesSize_map (hsettle ▸ Piece.size_settleCall _) l
  have hpiece : ∀ k r, (pieces.map settle)[k]? = some r →
      (t.after back).assembler.items.toList[s.count + k]? = some (r.item (s.offset + piecesSize ((pieces.map settle).take k))) ∧
        r.Lands (s.offset + piecesSize ((pieces.map settle).take k)) := by
    intro k r hr
    rw [List.getElem?_map] at hr
    obtain ⟨q, hq, rfl⟩ := Option.map_eq_some_iff.1 hr
    rw [← List.map_take, hsize, hsettle]
    exact settled_of_went h ht hknown hfinish hq
  rw [← hsettle]
  constructor
  · have hslice := slice_eq_itemsOf fun k r hr => (hpiece k r hr).1
    rw [← length_itemsOf s.offset] at hslice
    have hmiddle := bytes_middle hslice
    have hstart := itemsSize_of_went h (Session.onward_after ht back) (Nat.zero_le _)
    rw [Nat.add_zero, List.take_zero, piecesSize_nil, Nat.add_zero] at hstart
    rw [hstart, itemsSize_itemsOf, hsize] at hmiddle
    rw [Session.eq_of_finish hfinish]
    exact hmiddle
  · intro p hp
    obtain ⟨k, hk, hoffset⟩ := exists_of_mem_located hp
    rw [hoffset]
    exact (hpiece k p.2 hk).2

end

/-- Where code is finished, a procedure that a request has written lies in it. -/
theorem holds_of_finish {p : Procedure} {s : Session} {loose : Multiset Handle} {back : List Request} {entry : Nat} {c : Compiled}
    (h : Account.Sound ⟨s, loose⟩) (hok : (Request.procedure p).outcome s = .ok ())
    (hfinish : (((Request.procedure p).next s).after back).finish entry = .ok c) : c.Holds p s.offset := by
  obtain ⟨hfaults, hwent⟩ := Request.wrote_procedure hok
  have hsound := (Request.procedure p).sound_next h
  obtain ⟨hbytes, hlands⟩ := bytes_of_went hwent hsound (Procedure.known_of_faults hfaults _ _) hfinish
  have hoffset : c.procedureOffset? = (((Request.procedure p).next s).after back).procedureOffset? := by
    rw [Session.eq_of_finish hfinish]
    rfl
  have hintrinsics : c.intrinsics = s.intrinsics := by
    rw [Session.eq_of_finish hfinish]
    exact (Session.onward_after hsound back).intrinsics.trans hwent.wrote.intrinsics
  have hsettled : (p.pieces s.intrinsics .unknown s.offset).map (Piece.settleCall c.procedureOffset?) =
      p.pieces c.intrinsics ⟨none, c.procedureOffset?⟩ s.offset := by
    rw [hintrinsics, Procedure.pieces, List.map_append, map_bodyPieces (Surroundings.leads_settleCall _)]
    rfl
  rw [← hoffset, hsettled] at hbytes hlands
  rw [Procedure.piecesSize_pieces, ← hintrinsics] at hbytes
  exact ⟨hbytes, hlands⟩

/-! ## Every call of finished code -/

/-- A call in finished code is read where it was written, and it leads to the offset that a request for a procedure recorded, the first
of its name. If that request succeeded, the whole procedure lies there. -/
theorem calls_lead_to_requested {intrinsics : Intrinsics} {requests : List Request} {entry : Nat} {c : Compiled}
    (h : (Session.behind intrinsics requests).finish entry = .ok c) {i : Nat} {d : Int32}
    (hcall : (Session.behind intrinsics requests).assembler.items.toList[i]? = some (.instruction (.call d))) :
    ∃ offset front p back, offset = X64.itemsSize ((Session.behind intrinsics requests).assembler.items.toList.take i) ∧
      X64.decode (c.code.bytes.drop offset) = .ok (.call d, 5) ∧ requests = front ++ .procedure p :: back ∧
      ((offset + 5 : Nat) : Int) + d.toInt = (Session.behind intrinsics front).offset ∧
      c.procedureOffset? p.name = some (Session.behind intrinsics front).offset ∧
      ((Request.procedure p).outcome (Session.behind intrinsics front) = .ok () →
        c.Holds p (Session.behind intrinsics front).offset) := by
  have hstart := Account.sound_start intrinsics
  obtain ⟨name, d', target, hi, htarget, hd⟩ :=
    Session.callsLead_after hstart (Session.callsLead_start intrinsics) requests i d hcall
  obtain rfl : d = d' := by
    have := hcall.symm.trans hi
    simpa using this
  obtain ⟨b, hfind, rfl⟩ := Option.map_eq_some_iff.1 htarget
  have hname : b.1 = name := by simpa using List.find?_some hfind
  rcases Session.recorded_after (List.mem_of_find?_eq_some hfind) with hnone | ⟨front, p, back, rfl, rfl⟩
  · cases hnone
  refine ⟨_, front, p, back, rfl, Session.decode_of_finish h hcall, rfl, hd, ?_, fun hok => ?_⟩
  · rw [Session.eq_of_finish h, show p.name = name from hname]
    exact htarget
  · have hfinish := h
    unfold Session.behind at hfinish
    rw [Session.after_append] at hfinish
    exact holds_of_finish (Session.sound_after hstart front) hok hfinish

/-- The first call of the settled requests leads to the procedure that was requested. -/
theorem calls_lead_to_requested_settled : ∃ c, (Session.behind ⟨1, 2⟩ settledRequests).finish 7 = .ok c ∧
    (Session.behind ⟨1, 2⟩ settledRequests).assembler.items.toList[0]? = some (.instruction (.call 1)) ∧
    ∃ offset front p back, X64.decode (c.code.bytes.drop offset) = .ok (.call 1, 5) ∧
      settledRequests = front ++ .procedure p :: back ∧ offset + 6 = (Session.behind ⟨1, 2⟩ front).offset ∧
      ((Request.procedure p).outcome (Session.behind ⟨1, 2⟩ front) = .ok () →
        c.Holds p (Session.behind ⟨1, 2⟩ front).offset) := by
  have hok : ((Session.behind ⟨1, 2⟩ settledRequests).finish 7).isOk = true := by decide +kernel
  have hcall : (Session.behind ⟨1, 2⟩ settledRequests).assembler.items.toList[0]? = some (.instruction (.call 1)) := by
    decide +kernel
  cases hc : (Session.behind ⟨1, 2⟩ settledRequests).finish 7 with
  | error e =>
    rw [hc] at hok
    cases hok
  | ok c =>
    obtain ⟨offset, front, p, back, -, hdecode, hrequests, htarget, -, hholds⟩ := calls_lead_to_requested hc hcall
    have hd : (1 : Int32).toInt = 1 := by decide
    rw [hd] at htarget
    exact ⟨c, rfl, hcall, offset, front, p, back, hdecode, hrequests, by omega, hholds⟩

/-- Every call in finished code leads to a procedure whose request succeeded. -/
def CalleesWhole (intrinsics : Intrinsics) (requests : List Request) : Prop :=
  ∀ entry c, (Session.behind intrinsics requests).finish entry = .ok c →
    ∀ (i : Nat) d, (Session.behind intrinsics requests).assembler.items.toList[i]? = some (.instruction (.call d)) →
      ∃ front p back, requests = front ++ .procedure p :: back ∧
        (Request.procedure p).outcome (Session.behind intrinsics front) = .ok () ∧
        ((X64.itemsSize ((Session.behind intrinsics requests).assembler.items.toList.take i) + 5 : Nat) : Int) + d.toInt =
          (Session.behind intrinsics front).offset

/-- A main procedure that is recorded and has no code, as its only statement has none. -/
def hollowMain : Procedure :=
  ⟨"main", [.action (.compute .rax .add ⟨.immediate 1, ⟨18, 1, 19⟩⟩ ⟨.immediate 2, ⟨22, 1, 23⟩⟩) none ⟨12, 1, 13⟩], ⟨5, 1, 6⟩⟩

/-- Requests of which the first one fails; the code that a host enters then calls itself. -/
def hollowRequests : List Request := [.procedure hollowMain, .trampoline, .resolve]

/-- A procedure that was refused is called in code that is finished all the same. -/
theorem not_calleesWhole_hollow : ¬CalleesWhole ⟨1, 2⟩ hollowRequests := by
  have hfinish : ((Session.behind ⟨1, 2⟩ hollowRequests).finish 0).isOk = true := by decide +kernel
  have hcall : (Session.behind ⟨1, 2⟩ hollowRequests).assembler.items.toList[15]? = some (.instruction (.call (-28))) := by
    decide +kernel
  have hfails : ((Request.procedure hollowMain).outcome (Session.behind ⟨1, 2⟩ [])).isOk = false := by decide +kernel
  intro hwhole
  cases hc : (Session.behind ⟨1, 2⟩ hollowRequests).finish 0 with
  | error e =>
    rw [hc] at hfinish
    cases hfinish
  | ok c =>
    obtain ⟨front, p, back, hrequests, hok, -⟩ := hwhole 0 c hc 15 (-28) hcall
    -- The first request is the only one for a procedure.
    rcases front with _ | ⟨first, _ | ⟨second, _ | ⟨third, rest⟩⟩⟩
    · obtain ⟨rfl, -⟩ : hollowMain = p ∧ _ := by simpa [hollowRequests] using hrequests
      rw [hok] at hfails
      cases hfails
    · simp [hollowRequests] at hrequests
    · simp [hollowRequests] at hrequests
    · simp [hollowRequests] at hrequests

end RegisterCompiler
