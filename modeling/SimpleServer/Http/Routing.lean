import SimpleServer.Http.Response
import SimpleServer.WebSocket.Handshake

/-!
# Routes

The route table of `http_server` and the search for the handler of a URL: the URL itself, then
the routes as regular expressions, then the routes as patterns with typed placeholders.
-/

namespace SimpleServer

open Cxx

/-- `endpointcb`. -/
abbrev Endpoint := HttpRequest → HttpResponse

/-- `routes_map_org`. -/
abbrev RoutesMap := AList fun _ : Bytes => Endpoint

/-- `INVALID_HTTP_URI`. -/
def invalidHttpUri : Bytes := lit "INVALID URL"

/-- `add_route_handler`: `insert` finds the route that `operator[]` has just set. -/
def addRouteHandler (url : Bytes) (cb : Endpoint) (routes : RoutesMap) : RoutesMap :=
  insertNew url cb (routes.insert url cb)

/-! ## Typed placeholders -/

/-- `url_data_type`. -/
inductive UrlDataType
  | integer
  | str
  | boolean
  | invalidUrlDatatype
  deriving DecidableEq, Repr

/-- `get_node_data_type_by_pattern`, which keeps positions as `int`. -/
def getNodeDataTypeByPattern (routeNode : Bytes) : UrlDataType :=
  if posToInt (find (lit ":int>") routeNode) ≠ -1 then .integer
  else if posToInt (find (lit ":str>") routeNode) ≠ -1 then .str
  else if posToInt (find (lit ":boolean>") routeNode) ≠ -1 then .boolean
  else .invalidUrlDatatype

/-- `is_boolean`. -/
def isBoolean (sn : Bytes) : Bool := contains (lit "true") sn || contains (lit "false") sn

/-- `is_integer`. -/
def isInteger (sn : Bytes) : Bool := sn.all isDigit

/-- `getDataTypeByValue`. -/
def getDataTypeByValue (value : Bytes) : UrlDataType :=
  if isInteger value then .integer else if isBoolean value then .boolean else .str

/-- `validate_pattern_by_url`, whose iterator over the pattern is not compared with its end. -/
def validatePatternByUrl : List Bytes → List Bytes → Except Exn Bool
  | [], _ => .ok true
  | _ :: _, [] => .error .undefined
  | value :: uri, pValue :: pattern =>
    if value ≠ pValue then
      if pValue.head? ≠ some 60 then .ok false
      else if getNodeDataTypeByPattern pValue ≠ getDataTypeByValue value then .ok false
      else validatePatternByUrl uri pattern
    else validatePatternByUrl uri pattern

/-! ## The search -/

section Search

variable {β : Type}

/-- The loop of `query_endpoint_from_map` over the routes as regular expressions. -/
def matchRegex (platform : Platform) (uri : Bytes) :
    List (Bytes × β) → Except Exn (Option (Bytes × β))
  | [] => .ok none
  | it :: routes =>
    match platform.regex it.1 with
    | none => .error .regexError
    | some regexMatch =>
      if regexMatch uri then .ok (some it) else matchRegex platform uri routes

/-- The loop of `query_endpoint_from_map` over the routes as patterns. -/
def matchPattern (splittedUri : List Bytes) :
    List (Bytes × β) → Except Exn (Option (Bytes × β))
  | [] => .ok none
  | it :: routes =>
    match splitWordsInt it.1 47 with
    | .error e => .error e
    | .ok eSplitted =>
      if eSplitted.length ≠ splittedUri.length then matchPattern splittedUri routes
      else
        match validatePatternByUrl splittedUri eSplitted with
        | .error e => .error e
        | .ok status => if status then .ok (some it) else matchPattern splittedUri routes

/-- `query_endpoint_from_map`, for endpoints of any type; a function object or a pointer that was
never set is `none`. -/
def queryEndpointFromMap (platform : Platform) (routes : AList fun _ : Bytes => β) (uri : Bytes) :
    Except Exn (Bytes × Option β) :=
  let res := (invalidHttpUri, none)
  let found := fun it : Bytes × β => (it.1, some it.2)
  if uri.length = 1 ∧ uri = lit "/" then
    match (platform.order.enum routes).find? fun it => it.1 = lit "/" with
    | some it => .ok (found it)
    | none => .ok res
  else
    match routes.lookup uri with
    | some endpoint => .ok (uri, some endpoint)
    | none =>
      match matchRegex platform uri (platform.order.enum routes) with
      | .error e => .error e
      | .ok (some it) => .ok (found it)
      | .ok none =>
        match splitWordsInt uri 47 >>= (matchPattern · (platform.order.enum routes)) with
        | .error e => .error e
        | .ok (some it) => .ok (found it)
        | .ok none => .ok res

end Search

end SimpleServer
