import Uvio.Codec.Http
import Uvio.Program.Search

/-!
# `HttpServer`

The routes and what `handle_http` does with one connection. `std::regex` and
`regex_match` are parameters, and so is what the handlers do. `map_handles_` is an
unordered map: the list of its entries stands for the order in which the loop meets
them, which is the container's choice.

- `respond_eq`: the loop runs the handler of the first route that matches, or no
  handler, and answers accordingly, whatever the handlers do.
- `handled_orderFree_iff`: which handler runs depends on the order exactly when two
  routes that decide the request disagree.
- `handleHttp_congr`: where the choice is the same, the connection is served the
  same.
-/

namespace Uvio.Net.Http

open Program Codec Codec.Http

/-- `std::smatch` after `regex_match`: empty if the string did not match, otherwise
the string itself and then the groups. -/
abbrev Match := List Bytes

/-- What compiling a pattern and matching a string against it comes to. -/
inductive RegexMatch where
  /-- `std::regex` throws on the pattern. -/
  | invalid
  | miss
  | hit (groups : List Bytes)
deriving DecidableEq, Repr

/-- `map_handles_`, with handlers named by `H`. -/
structure HandleMap (H : Type) where
  entries : List (Bytes × H)
  distinct : (entries.map (·.1)).Nodup

namespace HandleMap

variable {H : Type}

def empty : HandleMap H := ⟨[], List.nodup_nil⟩

/-- `add_route(uri, coro)`: `map_handles_[uri] = std::move(coro)`. -/
def addRoute (map : HandleMap H) (uri : Bytes) (coro : H) : HandleMap H where
  entries := (uri, coro) :: map.entries.filter fun entry => entry.1 ≠ uri
  distinct := by
    refine List.nodup_cons.mpr ⟨fun hmem => ?_, ?_⟩
    · obtain ⟨entry, hentry, huri⟩ := List.mem_map.mp hmem
      exact of_decide_eq_true (List.mem_filter.mp hentry).2 huri
    · exact (List.filter_sublist.map _).nodup map.distinct

end HandleMap

section Respond

variable {H χ : Type} (regexMatch : Bytes → Bytes → RegexMatch)
  (call : H → HttpRequest → Match → HttpResponse → Task χ HttpResponse)

/-- The loop over `map_handles_`, with `request.match_` and `resp`. -/
def routeLoop (request : HttpRequest) :
    List (Bytes × H) → HttpResponse → Match → Task χ (HttpResponse × Match)
  | [], resp, match_ => pure (resp, match_)
  | (pattern, coro) :: rest, resp, _ =>
    match regexMatch request.uri pattern with
    | .invalid => Prog.stop .terminate
    | .miss => routeLoop request rest resp []
    | .hit groups => do
      let resp ← call coro request (request.uri :: groups) resp
      pure ({ resp with statusCode := 200, statusText := ascii "OK" }, request.uri :: groups)

/-- "Page not found". -/
def notFound (resp : HttpResponse) : HttpResponse :=
  { resp with
    body := ascii "Page not found"
    statusCode := 404
    statusText := ascii "Not Found" }

/-- From the request to the response. -/
def respond (routes : List (Bytes × H)) (request : HttpRequest) (resp : HttpResponse) :
    Task χ HttpResponse := do
  let (resp, match_) ← routeLoop regexMatch call request routes resp []
  if match_.isEmpty then pure (notFound resp) else pure resp

/-- One connection: the two halves of its stream, and what the handlers work on. -/
structure Connection (ρ ω χ : Type) where
  reader : ρ
  writer : ω
  app : χ

variable {ρ ω : Type} [Reader ρ] [Writer ω]

/-- `handle_http`. The status code of a new `HttpResponse` is not initialized. -/
def handleHttp (routes : List (Bytes × H)) (statusCode : Int) :
    Task (Connection ρ ω χ) Unit := do
  let (request, res) ← Prog.zoom Connection.reader (fun c r => { c with reader := r })
    (decodeRequest HttpRequest.fresh)
  match res with
  | .error _ => pure ()
  | .ok () =>
    let resp ← Prog.zoom Connection.app (fun c a => { c with app := a })
      (respond regexMatch call routes request (HttpResponse.fresh statusCode))
    -- a failed write is logged
    let _ ← Prog.zoom Connection.writer (fun c w => { c with writer := w })
      (encodeResponse resp)
    pure ()

end Respond

/-! ## Which handler runs -/

variable {H : Type} (regexMatch : Bytes → Bytes → RegexMatch)

/-- A handler that only records that it was called, and with which captures. -/
def record (coro : H) (_ : HttpRequest) (match_ : Match) (resp : HttpResponse) :
    Task (Option (H × Match)) HttpResponse := do
  set (some (coro, match_))
  pure resp

/-- The handler `handle_http` runs and its captures, if it runs one. -/
def handled (routes : List (Bytes × H)) (request : HttpRequest) :
    Except Stop (Option (H × Match)) :=
  ((respond regexMatch record routes request (HttpResponse.fresh 0)).run none).map (·.2)

/-- What a route decides about a request, if it decides anything: its handler and
the captures, or that the process ends. -/
def decision (uri : Bytes) (route : Bytes × H) : Option (Except Stop (H × Match)) :=
  match regexMatch uri route.1 with
  | .invalid => some (.error .terminate)
  | .miss => none
  | .hit groups => some (.ok (route.2, uri :: groups))

/-- What the loop does after a decision. -/
def serve {χ : Type} (call : H → HttpRequest → Match → HttpResponse → Task χ HttpResponse)
    (request : HttpRequest) (resp : HttpResponse) :
    Option (Except Stop (H × Match)) → Task χ HttpResponse
  | none => pure (notFound resp)
  | some (.error e) => Prog.stop e
  | some (.ok (coro, match_)) => do
    let resp ← call coro request match_ resp
    pure { resp with statusCode := 200, statusText := ascii "OK" }

/-- **The loop follows the first decision.** -/
theorem respond_eq {χ : Type} (call : H → HttpRequest → Match → HttpResponse → Task χ HttpResponse)
    (routes : List (Bytes × H)) (request : HttpRequest) (resp : HttpResponse) :
    respond regexMatch call routes request resp =
      serve call request resp (routes.findSome? (decision regexMatch request.uri)) := by
  induction routes with
  | nil => rfl
  | cons route rest ih =>
    obtain ⟨pattern, coro⟩ := route
    rw [List.findSome?_cons]
    cases hm : regexMatch request.uri pattern with
    | invalid =>
      simp only [respond, routeLoop, decision, hm]
      rfl
    | miss => simpa [respond, routeLoop, decision, hm] using ih
    | hit groups => simp [respond, routeLoop, decision, serve, hm]

/-- What is recorded is the first decision. -/
theorem handled_eq (routes : List (Bytes × H)) (request : HttpRequest) :
    handled regexMatch routes request =
      match routes.findSome? (decision regexMatch request.uri) with
      | none => .ok none
      | some (.error e) => .error e
      | some (.ok ran) => .ok (some ran) := by
  unfold handled
  rw [respond_eq]
  rcases routes.findSome? (decision regexMatch request.uri) with _ | _ | _ <;> rfl

/-- The recorded handler gives the first decision back. -/
theorem handled_eq_iff (routes routes' : List (Bytes × H)) (request : HttpRequest) :
    handled regexMatch routes request = handled regexMatch routes' request ↔
      routes.findSome? (decision regexMatch request.uri) =
        routes'.findSome? (decision regexMatch request.uri) := by
  rw [handled_eq, handled_eq]
  rcases routes.findSome? (decision regexMatch request.uri) with _ | _ | _ <;>
    rcases routes'.findSome? (decision regexMatch request.uri) with _ | _ | _ <;> simp

/-- **Where the choice is the same, the connection is served the same.** -/
theorem handleHttp_congr {χ ρ ω : Type} [Reader ρ] [Writer ω]
    (call : H → HttpRequest → Match → HttpResponse → Task χ HttpResponse)
    {routes routes' : List (Bytes × H)}
    (h : ∀ request, handled regexMatch routes request = handled regexMatch routes' request)
    (statusCode : Int) :
    (handleHttp regexMatch call routes statusCode : Task (Connection ρ ω χ) Unit) =
      handleHttp regexMatch call routes' statusCode := by
  have hrespond : ∀ request resp, respond regexMatch call routes request resp =
      respond regexMatch call routes' request resp := by
    intro request resp
    rw [respond_eq, respond_eq, (handled_eq_iff regexMatch _ _ request).mp (h request)]
  simp only [handleHttp, hrespond]

/-- **The handler does not depend on the order of the routes** iff all routes that
decide the request decide the same. -/
theorem handled_orderFree_iff (map : HandleMap H) (request : HttpRequest) :
    (∀ order₁ order₂ : List (Bytes × H), order₁.Perm map.entries → order₂.Perm map.entries →
      handled regexMatch order₁ request = handled regexMatch order₂ request) ↔
    HitsAgree (decision regexMatch request.uri) map.entries := by
  simp only [handled_eq_iff]
  exact findSome?_perm_iff

/-- `/about` and `/.*` match `/about`. -/
def overlapping (_ pattern : Bytes) : RegexMatch :=
  if pattern = ascii "/about" ∨ pattern = ascii "/.*" then .hit [] else .miss

/-- A route for one page and one for all pages: the order decides. -/
theorem not_handled_orderFree :
    ¬ ∀ order₁ order₂ : List (Bytes × Nat),
      order₁.Perm ((HandleMap.empty.addRoute (ascii "/about") 0).addRoute (ascii "/.*") 1).entries →
      order₂.Perm ((HandleMap.empty.addRoute (ascii "/about") 0).addRoute (ascii "/.*") 1).entries →
      handled overlapping order₁ { HttpRequest.fresh with uri := ascii "/about" } =
        handled overlapping order₂ { HttpRequest.fresh with uri := ascii "/about" } := by
  intro h
  have heq := h [(ascii "/about", 0), (ascii "/.*", 1)] [(ascii "/.*", 1), (ascii "/about", 0)]
    (by decide) (by decide)
  revert heq
  decide

end Uvio.Net.Http
