import RToJulia.Files.Path
import RToJulia.Translate
import RToJulia.Web.Json
import RToJulia.Web.Page

/-!
# The web interface

Three places can be asked for: the page, a sign of health, and the Julia text of
the R text in a request.  Every request is answered on its own.
-/

namespace RToJulia.Web

open Text

structure Request where
  method : Bytes
  target : Bytes
  body : Bytes := []
  deriving DecidableEq, Repr

structure Response where
  status : Nat
  contentType : Bytes
  body : Bytes
  /-- The methods that the place answers, when the method of the request is not among them. -/
  allow : Option Bytes := none
  /-- Where the place is to be found instead. -/
  location : Option Bytes := none
  deriving DecidableEq, Repr

inductive Place where
  | page
  | health
  | translate
  deriving DecidableEq, Repr

def unescapePercent : Nat → Bytes → Bytes
  | _, [] => []
  | skip + 1, _ :: rest => unescapePercent skip rest
  | 0, b :: rest =>
      match (if b = 0x25 then hexValue? 2 rest else none) with
      | some n => UInt8.ofNat n :: unescapePercent 2 rest
      | none => b :: unescapePercent 0 rest

def Place.ofPath? (path : Bytes) : Option Place :=
  let parts := (Path.splitAt Path.slash path).map (unescapePercent 0)
  if path = "/" then some .page
  else if parts = [utf8 "", utf8 "health"] then some .health
  else if parts = [utf8 "", utf8 "translate"] then some .translate
  else none

def Place.methods : Place → List String
  | page => ["GET", "HEAD"]
  | health => ["GET", "HEAD"]
  | translate => ["POST"]

def plain (status : Nat) (body : Bytes) (allow : Option Bytes) : Response :=
  { status, contentType := "text/plain; charset=utf-8", body, allow }

def json (status : Nat) (key : String) (value : Bytes) : Response :=
  { status, contentType := "application/json", body := Json.field key value }

/-- The R text of a request: the last entry `code` of an object, in letters of either case.
A null stands for no text; `none` if the request is not of this form. -/
def codeOf? : Json → Option Bytes
  | .null => some []
  | .object entries =>
      entries.foldlM (fun code (key, v) =>
        if key.map lowerByte ≠ utf8 "code" then some code
        else
          match v with
          | .text s => some s
          | .null => some code
          | _ => none) []
  | _ => none

def translateResponse (o : Options) (body : Bytes) : Except Halt (Response × Bytes) :=
  match (Json.ofText? body).bind codeOf? with
  | none => .ok (json 400 "error" "invalid request: the body holds no code", [])
  | some code => do
      match ← RToJulia.translate o code with
      | .ok julia => .ok (json 200 "julia" julia, warnings code)
      | .error f => .ok (json 400 "error" f.message, warnings code)

/-- A path without `.`, `..` and doubled slashes; a slash at the end stays. -/
def cleanPath (path : Bytes) : Bytes :=
  let cleaned := Path.clean (if Path.isRooted path then path else Path.slash :: path)
  if path.getLast? = some Path.slash && cleaned ≠ [Path.slash] then cleaned ++ [Path.slash]
  else cleaned

def moved (method path : Bytes) : Response :=
  let link := "<a href=\"" ++ path ++ "\">Temporary Redirect</a>.\n\n"
  let shown := method = "GET" || method = "HEAD"
  { status := 307
    contentType := if shown then "text/html; charset=utf-8" else []
    body := if method = "GET" then link else []
    location := some path }

def respond (o : Options) (r : Request) : Except Halt (Response × Bytes) :=
  let (path, query) := cut 0x3f r.target
  let cleaned := cleanPath path
  if cleaned ≠ path then
    .ok (moved r.method (if query = [] then cleaned else cleaned ++ "?" ++ query), [])
  else
    match Place.ofPath? path with
    | none => .ok (plain 404 "404 page not found\n" none, [])
    | some place =>
        if !place.methods.any (fun m => utf8 m = r.method) then
          let allow := List.intercalate (utf8 ", ") (place.methods.map utf8)
          .ok (plain 405 "Method Not Allowed\n" (some allow), [])
        else
          match place with
          | .page =>
              let body := if r.method = "HEAD" then [] else page
              .ok ({ status := 200, contentType := "text/html; charset=utf-8", body }, [])
          | .health => .ok (json 200 "status" "ok", [])
          | .translate => translateResponse o r.body

end RToJulia.Web
