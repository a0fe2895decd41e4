import Contexide.Core.Embeddings
import Contexide.Core.Json

/-! OpenAI-compatible embeddings provider. The HTTP client and the parsing of a
response into the wire format belong to `reqwest` and `serde_json`, so the client is a
parameter: it says which header values are well formed and how a request is answered. -/

namespace Contexide.Embeddings

structure OaiVec where
  embedding : List UInt32
  index : Option ℕ
  deriving DecidableEq

structure OaiResp where
  data : List OaiVec
  usage : Option Json

/-- A response: its status as a number and as it is shown, and its body parsed. -/
structure HttpResponse where
  status : ℕ
  statusText : String
  json : Except String OaiResp

def HttpResponse.isSuccess (resp : HttpResponse) : Bool := 200 ≤ resp.status ∧ resp.status < 300

structure HttpClient where
  headerValue : String → Except String String
  post : String → List (String × String) → Json → Except String HttpResponse

structure OpenAiEmbeddings where
  url : String
  info : ModelInfo
  apiKey : Option String
  org : Option String

namespace OpenAiEmbeddings

variable (provider : OpenAiEmbeddings) (client : HttpClient)

/-- A header that is sent when its value is configured. -/
def optionalHeader (name what : String) (value : Option String) :
    Except Error (List (String × String)) :=
  match value with
  | none => .ok []
  | some v =>
    match client.headerValue v with
    | .error e => .error (.other s!"invalid {what} header value: {e}")
    | .ok v => .ok [(name, v)]

def headers : Except Error (List (String × String)) := do
  let auth ← optionalHeader client "authorization" "OpenAI API key"
    (provider.apiKey.map fun k => "Bearer " ++ k)
  let org ← optionalHeader client "openai-organization" "OpenAI-Organization" provider.org
  pure (("content-type", "application/json") :: auth ++ org)

def body (inputs : List String) : Json :=
  .object [("input", .array (inputs.map .string)), ("model", .string provider.info.id)]

/-- The embeddings of a parsed response, in the order of its items. -/
def outputs (parsed : OaiResp) : List Embedding :=
  parsed.data.map fun v => { vector := v.embedding, tokenCount := none }

def embed (inputs : List String) : Except Error (List Embedding) := do
  let headers ← provider.headers client
  let resp ← (client.post provider.url headers (provider.body inputs)).mapError .other
  if !resp.isSuccess then
    throw (.other s!"openai embeddings HTTP {resp.statusText}")
  else
    let parsed ← resp.json.mapError .other
    let out := outputs parsed
    validateBatchShape provider.info inputs.length out
    pure out

/-- The exchange ends with this response. -/
structure Answered (inputs : List String) (parsed : OaiResp) : Prop where
  sent : ∃ headers, provider.headers client = .ok headers ∧
    ∃ resp, client.post provider.url headers (provider.body inputs) = .ok resp ∧
      resp.isSuccess = true ∧ resp.json = .ok parsed

variable {provider client}

/-- An answered request returns the embeddings in the order of the items, when they fit. -/
theorem embed_eq_ok {inputs : List String} {parsed : OaiResp}
    (h : provider.Answered client inputs parsed) (out : List Embedding) :
    provider.embed client inputs = .ok out ↔ out = outputs parsed ∧
      parsed.data.length = inputs.length ∧
      ∀ v ∈ parsed.data, v.embedding.length = provider.info.dims := by
  obtain ⟨headers, hheaders, resp, hpost, hok, hjson⟩ := h.sent
  have hembed : provider.embed client inputs =
      (validateBatchShape provider.info inputs.length (outputs parsed)).map
        fun _ => outputs parsed := by
    simp only [embed, hheaders, bind, Except.bind, hpost, Except.mapError, hok, Bool.not_true,
      Bool.false_eq_true, ↓reduceIte, hjson]
    cases validateBatchShape provider.info inputs.length (outputs parsed) <;> rfl
  have hshape : validateBatchShape provider.info inputs.length (outputs parsed) = .ok () ↔
      parsed.data.length = inputs.length ∧
        ∀ v ∈ parsed.data, v.embedding.length = provider.info.dims := by
    rw [validateBatchShape_eq_ok, outputs, List.length_map, List.forall_mem_map]
  rw [hembed, ← hshape]
  cases validateBatchShape provider.info inputs.length (outputs parsed) with
  | error e => simp [Except.map]
  | ok u => simp [Except.map, eq_comm]

end OpenAiEmbeddings

end Contexide.Embeddings
