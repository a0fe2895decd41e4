import Contexide.Core.Errors
import Contexide.Core.Extractor
import Contexide.Text.Lowercase
import Contexide.Text.Utf8

/-! What the extractors do alike: finding the media type of some bytes, making text of
them by the media type, and fetching them over HTTP. -/

namespace Contexide.Extractor

open StoragePg Text

/-- What the extractors use of other crates and of the character database. -/
structure Crates where
  cases : CaseTable
  separates : ∀ c, isWhitespace c = true ∨ c = ';' → cases.Separates c
  infer : List UInt8 → Option (List Char)
  html2text : List Char → ℕ → Option (List Char)
  pdfExtract : List UInt8 → Except String (List Char)
  showStatus : UInt16 → String

section

variable (crates : Crates)

/-- The media type that the bytes themselves show. -/
def sniffed (data : List UInt8) : List Char :=
  match crates.infer data with
  | some mime => crates.cases.toLowercase mime
  | none => "application/octet-stream".toList

/-- The hint, then what the bytes show, then octet-stream. -/
def detectMime (hint : Option (List Char)) (data : List UInt8) : List Char :=
  match hint with
  | some ct => if trim ct ≠ [] then crates.cases.toLowercase (trim ct) else sniffed crates data
  | none => sniffed crates data

/-- A coarse modality. -/
def modalityForMime (mime : List Char) : BlockModality :=
  if "text/".toList.isPrefixOf mime ∨ mime = "application/json".toList ∨
      mime = "application/xml".toList then .text
  else if "image/".toList.isPrefixOf mime then .image
  else .binary

/-- The text without whitespace around it, unless nothing is left. -/
def nonempty (s : List Char) : Option (List Char) := if trim s = [] then none else some (trim s)

def htmlText (data : List UInt8) : Option (List Char) :=
  nonempty ((crates.html2text (fromUtf8Lossy data) 80).getD [])

def plainText (data : List UInt8) : Option (List Char) := nonempty (fromUtf8Lossy data)

/-- The bytes as text, for the media types that have one. -/
def toText (mime : List Char) (data : List UInt8) : Option (List Char) :=
  if mime = "text/html".toList then htmlText crates data
  else if "text/".toList.isPrefixOf mime ∨ mime = "application/json".toList ∨
      mime = "application/xml".toList then plainText data
  else none

/-! ### Fetching -/

/-- The bytes under a key, or the error of reading them. -/
abbrev BlobStore := List Char → Except Error (List UInt8)

/-- A response; the value of its content type is one character an octet, and the body may
fail to arrive. -/
structure Response where
  status : UInt16
  contentType : Option (List Char)
  body : Option (List UInt8)

/-- The response to a GET request, unless it fails. -/
abbrev Client := List Char → Option Response

def isSuccess (status : UInt16) : Bool := 200 ≤ status && status < 300

def isVisibleAscii (c : Char) : Bool := 32 ≤ c.toNat && c.toNat < 127 || c == '\t'

/-- `HeaderValue::to_str` -/
def toStr (value : List Char) : Option (List Char) :=
  if value.all isVisibleAscii then some value else none

/-- What a request brings, with the content type where it can be read. -/
structure Page where
  bytes : List UInt8
  contentType : Option (List Char)
  status : UInt16

def getUrl (client : Client) (url : List Char) : Except Error Page :=
  match client url with
  | none => .error (.other ("GET " ++ String.ofList url ++ " failed"))
  | some resp =>
    if !isSuccess resp.status then
      .error (.other ("GET " ++ String.ofList url ++ " -> " ++ crates.showStatus resp.status))
    else
      match resp.body with
      | none => .error (.other ("read body " ++ String.ofList url ++ " failed"))
      | some bytes => .ok ⟨bytes, resp.contentType.bind toStr, resp.status⟩

def isHttp (key : List Char) : Bool :=
  "http://".toList.isPrefixOf key || "https://".toList.isPrefixOf key

end

end Contexide.Extractor
