import Unearth.Lib.Utf8
import Unearth.McpTools

/-!
# The server of the model context protocol

Requests come in one a line, and so do the answers go out. A line that is no request is answered with an
error, a notification is not answered at all, and a tool is called when a request asks for one that there
is. The tools may do anything: a call changes the world that the next one finds.
-/

namespace Unearth.Mcp
open Lines Json

def PROTOCOL_VERSION : String := "2024-11-05"
def SERVER_NAME : String := "unearth"
def CARGO_PKG_VERSION : String := "0.4.0"

def okResponse (id result : Json) : Json := obj [("jsonrpc", s "2.0"), ("id", id), ("result", result)]

def errorResponse (id : Json) (code : ℤ) (message : Text) : Json :=
  obj [("jsonrpc", s "2.0"), ("id", id),
    ("error", obj [("code", .num (some code)), ("message", .str message)])]

def toolContent (text : Text) (isError : Bool) : Json :=
  obj [("content", .arr [obj [("type", s "text"), ("text", .str text)]]), ("isError", .bool isError)]

/-- A request may leave the id out; one that is there is a string, a number or null. -/
def idOk : Option Json → Bool
  | none => true
  | some .null => true
  | some (.str _) => true
  | some (.num _) => true
  | _ => false

/-- The id of the answer to what is no request. -/
def replyId : Option Json → Json
  | some (.str t) => .str t
  | some (.num n) => .num n
  | _ => .null

def strField (j : Json) (key : String) : Option Text := (j.get key.toList).bind asStr

def versionOk (req : Json) : Bool := strField req "jsonrpc" = some "2.0".toList
def methodOk (req : Json) : Bool := (strField req "method").isSome

def initializeResult (params : Option Json) : Json :=
  obj [("protocolVersion", .str ((params.bind fun p => strField p "protocolVersion").getD PROTOCOL_VERSION.toList)),
    ("capabilities", obj [("tools", obj [])]),
    ("serverInfo", obj [("name", s SERVER_NAME), ("version", s CARGO_PKG_VERSION)])]

section Server

variable {σ : Type} (display : Option ℚ → Text) (callTool : Text → Option Json → σ → Except Text Json × σ)

def toolsCall (id : Json) (params : Option Json) (w : σ) : Json × σ :=
  match params with
  | some (.obj fields) =>
    match strField (.obj fields) "name" with
    | none => (errorResponse id (-32602) "invalid params: `name` must be a string".toList, w)
    | some name =>
      if name ∈ TOOL_NAMES.map String.toList then
        match callTool name ((Json.obj fields).get "arguments".toList) w with
        | (.ok value, w) => (okResponse id (toolContent (value.toString display) false), w)
        | (.error msg, w) => (okResponse id (toolContent msg true), w)
      else (errorResponse id (-32602) ("invalid params: unknown tool '".toList ++ name ++ ['\'']), w)
  | _ =>
    (errorResponse id (-32602)
      "invalid params: tools/call needs an object with `name` and `arguments`".toList, w)

/-- The answer to a request, if it has one, and the world behind it. -/
def handleRequest (req : Json) (w : σ) : Option Json × σ :=
  let id := req.get "id".toList
  if !versionOk req || !methodOk req || !idOk id then
    let what :=
      if !versionOk req then "missing or unsupported jsonrpc version (expected \"2.0\")"
      else if !methodOk req then "missing method"
      else "id must be a string, a number, or null"
    (some (errorResponse (replyId id) (-32600) ("invalid request: ".toList ++ what.toList)), w)
  else
    let method := (strField req "method").getD []
    let params := req.get "params".toList
    if method = "initialize".toList then (id.map fun id => okResponse id (initializeResult params), w)
    else if method = "ping".toList then (id.map fun id => okResponse id (obj []), w)
    else if method = "tools/list".toList then (id.map fun id => okResponse id (obj [("tools", toolDefinitions)]), w)
    else if method = "tools/call".toList then
      match id with
      | none => (none, w)
      | some id =>
        let (answer, w) := toolsCall display callTool id params w
        (some answer, w)
    else (id.map fun id => errorResponse id (-32601) ("method not found: ".toList ++ method), w)

def parseError (e : Text) : Json := errorResponse .null (-32700) ("parse error: ".toList ++ e)

/-- What is written for a line, if anything is, and the world behind it. -/
def serveLine (line : Text) (w : σ) : Option Text × σ :=
  if trim line = [] then (none, w)
  else match parse line with
    | .error e => (some ((parseError e).toString display), w)
    | .ok req =>
      let (resp, w) := handleRequest display callTool req w
      (resp.map (Json.toString display), w)

/-- Put a byte in front of the first line, starting one if there is none. -/
def consLine (b : UInt8) : List (List UInt8) → List (List UInt8)
  | [] => [[b]]
  | l :: ls => (b :: l) :: ls

/-- A line ends at a line feed, with or without a carriage return before it. -/
def byteLines : List UInt8 → List (List UInt8)
  | [] => []
  | b :: t =>
    if b = 10 then [] :: byteLines t
    else if b = 13 ∧ t.head? = some 10 then byteLines t
    else consLine b (byteLines t)

/-- What a server has written, the world that it leaves, and whether it has ended at a line that is no text. -/
structure Served (σ : Type) where
  out : Text
  world : σ
  failed : Bool

def serveLines : List (List UInt8) → σ → Served σ
  | [], w => ⟨[], w, false⟩
  | bytes :: rest, w =>
    match Utf8.fromUtf8 bytes with
    | none => ⟨[], w, true⟩
    | some line =>
      let (answer, w) := serveLine display callTool line w
      let served := serveLines rest w
      { served with out := answer.elim [] (· ++ ['\n']) ++ served.out }

def serve (input : List UInt8) (w : σ) : Served σ := serveLines display callTool (byteLines input) w

end Server

end Unearth.Mcp
