import Unearth.McpServer

/-!
# What the server answers

A line is owed an answer when it is no request, or when it is one with an id. However the lines come and
whatever the tools do, each of these gets one answer, in their order: an object on a line of its own, which
has the id of the request and either a result or an error. The tools that run are those that were called.
-/

namespace Unearth.Mcp
open Lines Json Utf8 JsonGrammar

/-- What may be taken for a request. -/
def IsRequest (req : Json) : Prop := versionOk req ∧ methodOk req ∧ idOk (req.get "id".toList)

instance (req : Json) : Decidable (IsRequest req) := inferInstanceAs (Decidable (_ ∧ _))

/-- The id of the answer that a request gets, if it gets one. -/
def owedTo (req : Json) : Option Json :=
  if IsRequest req then req.get "id".toList else some (replyId (req.get "id".toList))

/-- The id of the answer that a line gets, if it gets one. -/
def owed (line : Text) : Option Json :=
  if trim line = [] then none
  else match parse line with
    | .error _ => some .null
    | .ok req => owedTo req

/-- The tool that the parameters ask for, and its arguments. -/
def toolOf (params : Option Json) : Option (Text × Option Json) :=
  match params with
  | some (.obj fields) =>
    ((strField (.obj fields) "name").filter fun name => TOOL_NAMES.any (·.toList = name)).map fun name =>
      (name, (Json.obj fields).get "arguments".toList)
  | _ => none

theorem any_toolNames {name : Text} :
    TOOL_NAMES.any (·.toList = name) = true ↔ name ∈ TOOL_NAMES.map String.toList := by
  rw [List.any_eq_true, List.mem_map]
  simp only [decide_eq_true_eq]

/-- The call that a request is, if it is one that is carried out. -/
def calledBy (req : Json) : Option (Text × Option Json) :=
  if IsRequest req ∧ (req.get "id".toList).isSome ∧ strField req "method" = some "tools/call".toList then
    toolOf (req.get "params".toList)
  else none

def called (line : Text) : Option (Text × Option Json) :=
  if trim line = [] then none
  else match parse line with
    | .error _ => none
    | .ok req => calledBy req

/-- The answer with an id, as a client reads it: one line, an object, and either a result or an error. -/
structure IsAnswer (id : Json) (t : Text) : Prop where
  oneLine : OneLine t
  spoken : ∃ fields, parse t = .ok (.obj fields) ∧ (Json.obj fields).get "jsonrpc".toList = some (s "2.0") ∧
    (Json.obj fields).get "id".toList = some id ∧
    (((Json.obj fields).get "result".toList).isSome ↔ ¬ ((Json.obj fields).get "error".toList).isSome)

section Answers

variable {display : Option ℚ → Text} {id : Json}

/-- What may be answered under an id. -/
inductive IsResponse (display : Option ℚ → Text) (id : Json) : Json → Prop
  | ok {result : Json} (h : Legible display 127 result) : IsResponse display id (okResponse id result)
  | error {code : ℤ} (h : code.natAbs < 10 ^ 15) (message : Text) :
    IsResponse display id (errorResponse id code message)

theorem IsResponse.legible {resp : Json} (h : IsResponse display id resp) (hid : Legible display 127 id) :
    Legible display 128 resp := by
  cases h with
  | ok hresult =>
    exact legible_members (List.forall_mem_cons.mpr ⟨legible_str _,
      List.forall_mem_cons.mpr ⟨hid, List.forall_mem_singleton.mpr hresult⟩⟩)
  | error hcode message =>
    refine legible_members (List.forall_mem_cons.mpr ⟨legible_str _,
      List.forall_mem_cons.mpr ⟨hid, List.forall_mem_singleton.mpr (legible_members (k := 126) ?_)⟩⟩)
    exact List.forall_mem_cons.mpr ⟨legible_int hcode, List.forall_mem_singleton.mpr (legible_str _)⟩

theorem IsResponse.isAnswer {resp : Json} (h : IsResponse display id resp) (hid : Legible display 127 id) :
    IsAnswer id (resp.toString display) := by
  have hlegible := h.legible hid
  refine ⟨hlegible.clean.oneLine, ?_⟩
  have hparse := hlegible.parse_eq
  cases h with
  | ok _ =>
    refine ⟨_, hparse, ?_⟩
    change (obj _).get _ = _ ∧ (obj _).get _ = _ ∧ (((obj _).get _).isSome ↔ ¬ ((obj _).get _).isSome)
    simp only [get_obj_three]
    simp
  | error _ _ =>
    refine ⟨_, hparse, ?_⟩
    change (obj _).get _ = _ ∧ (obj _).get _ = _ ∧ (((obj _).get _).isSome ↔ ¬ ((obj _).get _).isSome)
    simp only [get_obj_three]
    simp

/-- The ids that are answered are those that may be printed on a line. -/
theorem legible_id (hshows : Shows display) {req : Json} (hreq : Doubles req) (h : owedTo req = some id) :
    Legible display 127 id := by
  have hof : ∀ {v : Json}, req.get "id".toList = some v → idOk (some v) → Legible display 127 v := by
    intro v hget hok
    have hv := hreq.get hget
    cases hv with
    | null => exact legible_null
    | str t => exact legible_str t
    | num hq => exact legible_num hshows hq
    | bool b => cases hok
    | arr _ => cases hok
    | obj _ => cases hok
  unfold owedTo at h
  split_ifs at h with hrequest
  · have hok := hrequest.2.2
    rw [h] at hok
    exact hof h hok
  · cases h
    cases hget : req.get "id".toList with
    | none => exact legible_null
    | some v =>
      have hv := hreq.get hget
      cases hv with
      | str t => exact legible_str t
      | num hq => exact legible_num hshows hq
      | null => exact legible_null
      | bool b => exact legible_null
      | arr _ => exact legible_null
      | obj _ => exact legible_null

theorem legible_toolContent (text : Text) (isError : Bool) : Legible display 127 (toolContent text isError) := by
  have htext : Legible display 125 (obj [("type", s "text"), ("text", .str text)]) :=
    legible_members (k := 124) (List.forall_mem_cons.mpr ⟨legible_str _, List.forall_mem_singleton.mpr (legible_str _)⟩)
  exact legible_members (k := 126) (List.forall_mem_cons.mpr ⟨legible_arr (k := 125) (List.forall_mem_singleton.mpr htext),
    List.forall_mem_singleton.mpr (legible_bool _)⟩)

theorem legible_empty : Legible display 1 (obj []) := legible_members fun _ h => absurd h List.not_mem_nil

theorem legible_initializeResult (params : Option Json) : Legible display 127 (initializeResult params) := by
  have htools : Legible display 2 (obj [("tools", obj [])]) := legible_members (List.forall_mem_singleton.mpr legible_empty)
  refine legible_members (k := 126) (List.forall_mem_cons.mpr ⟨legible_str _, List.forall_mem_cons.mpr
    ⟨htools.mono (by decide), List.forall_mem_singleton.mpr (legible_members (k := 125) ?_)⟩⟩)
  exact List.forall_mem_cons.mpr ⟨legible_str _, List.forall_mem_singleton.mpr (legible_str _)⟩

theorem legible_toolList : Legible display 127 (obj [("tools", toolDefinitions)]) := by
  refine legible_members (k := 126) (List.forall_mem_singleton.mpr ?_)
  exact legible_toolDefinitions.mono (by decide)

section Server

variable {σ : Type} {callTool : Text → Option Json → σ → Except Text Json × σ}

/-- What a call does to the world. -/
def runCall (callTool : Text → Option Json → σ → Except Text Json × σ) (w : σ) (call : Text × Option Json) : σ :=
  (callTool call.1 call.2 w).2

theorem toolsCall_spec (id : Json) (params : Option Json) (w : σ) :
    IsResponse display id (toolsCall display callTool id params w).1 ∧
      (toolsCall display callTool id params w).2 = (toolOf params).elim w (runCall callTool w) := by
  rcases params with _ | params
  · exact ⟨.error (by decide) _, rfl⟩
  cases params with
  | obj fields =>
    unfold toolsCall toolOf
    dsimp only
    cases hname : strField (.obj fields) "name" with
    | none => exact ⟨.error (by decide) _, rfl⟩
    | some name =>
      dsimp only
      by_cases hmem : name ∈ TOOL_NAMES.map String.toList
      · rw [if_pos hmem, Option.filter_some, if_pos (any_toolNames.mpr hmem)]
        cases hcall : callTool name ((Json.obj fields).get "arguments".toList) w with
        | mk result w' =>
          have hworld : w' = runCall callTool w (name, (Json.obj fields).get "arguments".toList) := by
            rw [runCall, hcall]
          cases result with
          | ok value => exact ⟨.ok (legible_toolContent _ _), hworld⟩
          | error msg => exact ⟨.ok (legible_toolContent _ _), hworld⟩
      · rw [if_neg hmem, Option.filter_some, if_neg (any_toolNames.not.mpr hmem)]
        exact ⟨.error (by decide) _, rfl⟩
  | null => exact ⟨.error (by decide) _, rfl⟩
  | bool _ => exact ⟨.error (by decide) _, rfl⟩
  | num _ => exact ⟨.error (by decide) _, rfl⟩
  | str _ => exact ⟨.error (by decide) _, rfl⟩
  | arr _ => exact ⟨.error (by decide) _, rfl⟩

/-- A request gets the answer that it is owed, and the tool that it calls runs. -/
theorem handleRequest_spec (req : Json) (w : σ) :
    Option.Rel (IsResponse display) (owedTo req) (handleRequest display callTool req w).1 ∧
      (handleRequest display callTool req w).2 = (calledBy req).elim w (runCall callTool w) := by
  by_cases hrequest : IsRequest req
  · have hvalid : ¬ ((!versionOk req || !methodOk req || !idOk (req.get "id".toList)) = true) := by
      obtain ⟨hversion, hmethod, hid⟩ := hrequest
      rw [hversion, hmethod, hid]
      decide
    obtain ⟨method, hmethod⟩ := Option.isSome_iff_exists.mp hrequest.2.1
    have hother : method ≠ "tools/call".toList → calledBy req = none := by
      intro hne
      rw [calledBy, if_neg]
      rintro ⟨-, -, hcall⟩
      exact hne (Option.some.inj (hmethod.symm.trans hcall))
    rw [owedTo, if_pos hrequest]
    unfold handleRequest
    dsimp only
    rw [if_neg hvalid, hmethod, Option.getD_some]
    cases hid : req.get "id".toList with
    | none =>
      have hcalled : calledBy req = none := by
        rw [calledBy, hid, if_neg]
        exact fun h => absurd h.2.1 (by decide)
      rw [hcalled]
      split_ifs <;> exact ⟨.none, rfl⟩
    | some id =>
      split_ifs with hinit hping hlist hcall
      · rw [hother fun h => absurd (String.toList_inj.mp (hinit.symm.trans h)) (by decide)]
        exact ⟨.some (.ok (legible_initializeResult _)), rfl⟩
      · rw [hother fun h => absurd (String.toList_inj.mp (hping.symm.trans h)) (by decide)]
        exact ⟨.some (.ok (legible_empty.mono (by decide))), rfl⟩
      · rw [hother fun h => absurd (String.toList_inj.mp (hlist.symm.trans h)) (by decide)]
        exact ⟨.some (.ok legible_toolList), rfl⟩
      · have hcalled : calledBy req = toolOf (req.get "params".toList) := by
          rw [calledBy, hid, hmethod, hcall, if_pos ⟨hrequest, rfl, rfl⟩]
        obtain ⟨hresponse, hworld⟩ := @toolsCall_spec display σ callTool id (req.get "params".toList) w
        rw [hcalled]
        exact ⟨.some hresponse, hworld⟩
      · rw [hother hcall]
        exact ⟨.some (.error (by decide) _), rfl⟩
  · have hinvalid : (!versionOk req || !methodOk req || !idOk (req.get "id".toList)) = true := by
      rw [IsRequest, not_and_or, not_and_or] at hrequest
      simp only [Bool.or_eq_true, Bool.not_eq_true']
      simpa only [Bool.not_eq_true, or_assoc] using hrequest
    have hcalled : calledBy req = none := by
      rw [calledBy, if_neg]
      exact fun h => hrequest h.1
    rw [owedTo, if_neg hrequest, hcalled]
    unfold handleRequest
    dsimp only
    rw [if_pos hinvalid]
    exact ⟨.some (.error (by decide) _), rfl⟩

/-- The call that a line is, is carried out. -/
theorem serveLine_world (line : Text) (w : σ) :
    (serveLine display callTool line w).2 = (called line).elim w (runCall callTool w) := by
  unfold serveLine called
  by_cases hblank : trim line = []
  · rw [if_pos hblank, if_pos hblank]
    rfl
  · rw [if_neg hblank, if_neg hblank]
    cases hparse : parse line with
    | error e => rfl
    | ok req => exact (@handleRequest_spec display σ callTool req w).2

/-- A line gets the answer that it is owed. -/
theorem serveLine_answer (hshows : Shows display) (line : Text) (w : σ) :
    Option.Rel IsAnswer (owed line) (serveLine display callTool line w).1 := by
  unfold serveLine owed
  by_cases hblank : trim line = []
  · rw [if_pos hblank, if_pos hblank]
    exact .none
  · rw [if_neg hblank, if_neg hblank]
    cases hparse : parse line with
    | error e => exact .some (IsResponse.isAnswer (.error (by decide) _) legible_null)
    | ok req =>
      obtain ⟨hresponse, -⟩ := @handleRequest_spec display σ callTool req w
      dsimp only
      generalize (handleRequest display callTool req w).1 = resp at hresponse
      cases howed : owedTo req with
      | none =>
        rw [howed] at hresponse
        cases hresponse
        exact .none
      | some id =>
        rw [howed] at hresponse
        cases hresponse with
        | some hresponse => exact .some (hresponse.isAnswer (legible_id hshows (parse_doubles hparse) howed))

end Server

end Answers

section Runs

variable {σ : Type} {display : Option ℚ → Text} {callTool : Text → Option Json → σ → Except Text Json × σ}

/-- The lines that are texts, up to the first one that is none. -/
def texts : List (List UInt8) → List Text
  | [] => []
  | bytes :: rest =>
    match fromUtf8 bytes with
    | none => []
    | some line => line :: texts rest

section Texts

variable {bytes : List UInt8} {line : Text}

theorem texts_cons (h : fromUtf8 bytes = some line) (rest : List (List UInt8)) :
    texts (bytes :: rest) = line :: texts rest := by
  rw [texts, h]

theorem texts_broken (h : fromUtf8 bytes = none) (rest : List (List UInt8)) : texts (bytes :: rest) = [] := by
  rw [texts, h]

end Texts

/-- What a run has come to: an answer for every line that is owed one, in their order, and the tools have
run that were called. -/
structure Answered (callTool : Text → Option Json → σ → Except Text Json × σ) (input : List (List UInt8)) (w : σ)
    (served : Served σ) : Prop where
  answers : ∃ answers, served.out = unlines answers ∧ List.Forall₂ IsAnswer ((texts input).filterMap owed) answers
  world : served.world = ((texts input).filterMap called).foldl (runCall callTool) w
  failed : served.failed ↔ ∃ bytes ∈ input, fromUtf8 bytes = none

theorem filterMap_cons_elim {α β : Type} (f : α → Option β) (a : α) (l : List α) :
    (a :: l).filterMap f = (f a).elim (l.filterMap f) (· :: l.filterMap f) := by
  rw [List.filterMap_cons]
  cases f a <;> rfl

theorem serveLines_answered (hshows : Shows display) (input : List (List UInt8)) (w : σ) :
    Answered callTool input w (serveLines display callTool input w) := by
  induction input generalizing w with
  | nil => exact ⟨⟨[], rfl, .nil⟩, rfl, by simp [serveLines]⟩
  | cons bytes rest ih =>
    cases htext : fromUtf8 bytes with
    | none =>
      have hsaid := texts_broken htext rest
      have hserved : serveLines display callTool (bytes :: rest) w = ⟨[], w, true⟩ := by rw [serveLines, htext]
      rw [hserved]
      refine ⟨⟨[], rfl, ?_⟩, ?_, fun _ => ⟨bytes, List.mem_cons_self, htext⟩, fun _ => rfl⟩
      · rw [hsaid]
        exact .nil
      · rw [hsaid]
        rfl
    | some line =>
      have hsaid := texts_cons htext rest
      have hanswer := @serveLine_answer display σ callTool hshows line w
      have hworld := @serveLine_world display σ callTool line w
      have hserved : serveLines display callTool (bytes :: rest) w =
          { serveLines display callTool rest (serveLine display callTool line w).2 with
            out := (serveLine display callTool line w).1.elim [] (· ++ ['\n']) ++
              (serveLines display callTool rest (serveLine display callTool line w).2).out } := by
        rw [serveLines, htext]
      obtain ⟨⟨answers, hout, hanswers⟩, hrest, hfailed⟩ := ih (serveLine display callTool line w).2
      rw [hserved]
      refine ⟨?_, ?_, ?_⟩
      · rw [hsaid, filterMap_cons_elim]
        generalize owed line = promised at hanswer ⊢
        generalize (serveLine display callTool line w).1 = answer at hanswer ⊢
        cases hanswer with
        | none => exact ⟨answers, hout, hanswers⟩
        | @some id t h =>
          refine ⟨t :: answers, ?_, .cons h hanswers⟩
          dsimp only [Option.elim]
          rw [hout, unlines_cons, List.append_assoc]
          rfl
      · rw [hsaid, filterMap_cons_elim]
        dsimp only
        rw [hrest, hworld]
        cases called line <;> rfl
      · dsimp only
        rw [hfailed, List.exists_mem_cons_iff, htext]
        simp

/-- Answers are read back from the lines that they are written on. -/
theorem lines_answers {ids : List Json} {answers : List Text} (h : List.Forall₂ IsAnswer ids answers) :
    lines (unlines answers) = answers := by
  refine lines_unlines fun t ht => ?_
  obtain ⟨i, hi, rfl⟩ := List.mem_iff_getElem.mp ht
  exact (h.get (by rw [h.length_eq]; exact hi) hi).oneLine

/-- Every line that is owed an answer gets one, in the order of the lines and with the id of the request, and
nothing else is written; the tools run that were called, and the server goes on until the input ends or a
line is no text. -/
theorem serve_answers (hshows : Shows display) (input : List UInt8) (w : σ) :
    let said := texts (byteLines input)
    let served := serve display callTool input w
    List.Forall₂ IsAnswer (said.filterMap owed) (lines served.out) ∧ served.out = unlines (lines served.out) ∧
      served.world = (said.filterMap called).foldl (runCall callTool) w ∧
      (served.failed ↔ ∃ bytes ∈ byteLines input, fromUtf8 bytes = none) := by
  obtain ⟨⟨answers, hout, hanswers⟩, hworld, hfailed⟩ :=
    @serveLines_answered σ display callTool hshows (byteLines input) w
  have hlines : lines (serve display callTool input w).out = answers := by
    rw [serve, hout, lines_answers hanswers]
  dsimp only
  rw [hlines]
  exact ⟨hanswers, hout, hworld, hfailed⟩

end Runs

section Endurance

variable {σ : Type} {display : Option ℚ → Text}

/-- The id of the answer that a line is owed as it comes in: what is no text is no request either. -/
def owedFor (bytes : List UInt8) : Option Json :=
  match fromUtf8 bytes with
  | none => some .null
  | some line => owed line

/-- The server has read all lines, and has written an answer for each that is owed one, in their order. -/
structure Enduring (input : List UInt8) (served : Served σ) : Prop where
  finished : served.failed = false
  answers : ∃ answers, served.out = unlines answers ∧
    List.Forall₂ IsAnswer ((byteLines input).filterMap owedFor) answers

theorem owedFor_text {bytes : List UInt8} {line : Text} (h : fromUtf8 bytes = some line) :
    owedFor bytes = owed line := by
  rw [owedFor, h]

theorem filterMap_owedFor {input : List (List UInt8)} (h : ∀ bytes ∈ input, (fromUtf8 bytes).isSome) :
    input.filterMap owedFor = (texts input).filterMap owed := by
  induction input with
  | nil => rfl
  | cons bytes rest ih =>
    obtain ⟨hbytes, hrest⟩ := List.forall_mem_cons.mp h
    obtain ⟨line, hline⟩ := Option.isSome_iff_exists.mp hbytes
    rw [texts_cons hline, filterMap_cons_elim, filterMap_cons_elim, owedFor_text hline, ih hrest]

/-- A line that is no text leaves fewer answers than are owed. -/
theorem texts_short {input : List (List UInt8)} (h : ∃ bytes ∈ input, fromUtf8 bytes = none) :
    ((texts input).filterMap owed).length < (input.filterMap owedFor).length := by
  induction input with
  | nil =>
    obtain ⟨bytes, hbytes, -⟩ := h
    cases hbytes
  | cons bytes rest ih =>
    cases htext : fromUtf8 bytes with
    | none =>
      have howed : owedFor bytes = some .null := by rw [owedFor, htext]
      rw [texts_broken htext, filterMap_cons_elim, howed]
      exact Nat.succ_pos _
    | some line =>
      have hshort := ih (by simpa [htext] using h)
      rw [texts_cons htext, filterMap_cons_elim, filterMap_cons_elim, owedFor_text htext]
      cases owed line with
      | none => exact hshort
      | some id => exact Nat.succ_lt_succ hshort

/-- The server endures exactly the inputs all of whose lines are texts: behind one that is none nothing is answered. -/
theorem serve_endures_iff (hshows : Shows display) (callTool : Text → Option Json → σ → Except Text Json × σ)
    (input : List UInt8) (w : σ) :
    Enduring input (serve display callTool input w) ↔ ∀ bytes ∈ byteLines input, (fromUtf8 bytes).isSome := by
  obtain ⟨⟨given, hgiven, hall⟩, -, hfailed⟩ :=
    @serveLines_answered σ display callTool hshows (byteLines input) w
  constructor
  · intro h bytes hbytes
    by_contra hno
    -- what was written has room for the answers up to this line only
    obtain ⟨answers, hout, hanswers⟩ := h.answers
    have hsame : answers = given := by
      rw [← lines_answers hanswers, ← lines_answers hall]
      exact congrArg lines (hout.symm.trans hgiven)
    have hshort := texts_short ⟨bytes, hbytes, Option.not_isSome_iff_eq_none.mp hno⟩
    rw [hall.length_eq, hanswers.length_eq, hsame] at hshort
    exact lt_irrefl _ hshort
  · intro h
    refine ⟨Bool.eq_false_iff.mpr fun hended => ?_, given, hgiven, ?_⟩
    · obtain ⟨bytes, hbytes, hnone⟩ := hfailed.mp hended
      exact Option.not_isSome_iff_eq_none.mpr hnone (h bytes hbytes)
    · rw [filterMap_owedFor h]
      exact hall

def ping : List UInt8 :=
  "\x7b\"jsonrpc\":\"2.0\",\"id\":1,\"method\":\"ping\"\x7d\n".toList.map fun c => UInt8.ofNat c.toNat

def idle (_ : Text) (_ : Option Json) (w : Unit) : Except Text Json × Unit := (.ok .null, w)

/-- A request on a line of its own is answered. -/
theorem ping_answered : Enduring ping (serve (fun n => n.elim [] dyadicText) idle ping ()) :=
  (serve_endures_iff shows_dyadicText idle ping ()).mpr (by decide +kernel)

/-- Behind a line that is no text the same request is not. -/
theorem ping_unanswered :
    serve (fun n => n.elim [] dyadicText) idle (0xFF :: 10 :: ping) () = ⟨[], (), true⟩ ∧
      ¬ Enduring (0xFF :: 10 :: ping) (serve (fun n => n.elim [] dyadicText) idle (0xFF :: 10 :: ping) ()) := by
  have hlines : byteLines (0xFF :: 10 :: ping) = [0xFF] :: byteLines ping := rfl
  have hnone : fromUtf8 [0xFF] = none := by decide
  have hserved : serve (fun n => n.elim [] dyadicText) idle (0xFF :: 10 :: ping) () = ⟨[], (), true⟩ := by
    rw [serve, hlines, serveLines, hnone]
  refine ⟨hserved, fun h => ?_⟩
  rw [hserved] at h
  exact absurd h.finished (by decide)

end Endurance

end Unearth.Mcp
