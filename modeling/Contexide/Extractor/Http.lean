import Contexide.Extractor.Mime

/-! The HTTP extractor: fetches a URL from the storage key of the asset and returns one
block. -/

namespace Contexide.Extractor.HttpExtractor

open StoragePg

variable (crates : Crates)

def detectMime (hint : Option (List Char)) (body : List UInt8) : List Char :=
  Extractor.detectMime crates hint body

def modalityForMime (mime : List Char) : BlockModality := Extractor.modalityForMime mime

def toText (mime : List Char) (data : List UInt8) : Option (List Char) :=
  Extractor.toText crates mime data

/-- The entries that say where a block comes from. -/
def withSource (b : ExtractedBlock) (url : List Char) (status : UInt16) : ExtractedBlock :=
  (b.insert "source_url" (.string (String.ofList url))).insert "http_status"
    (.number (.posInt status.toUInt64))

def asTextBlock (asset : AssetInput) (mime : Option (List Char)) (text : List Char)
    (bytesLen : ℕ) (url : List Char) (status : UInt16) : ExtractedBlock :=
  let b := ExtractedBlock.ofText asset.tenantId asset.documentId asset.assetId mime text
  withSource (b.insert "bytes_len" (.number (.posInt bytesLen.toUInt64))) url status

def asBlobBlock (asset : AssetInput) (modality : BlockModality) (mime : Option (List Char))
    (data : List UInt8) (url : List Char) (status : UInt16) : ExtractedBlock :=
  withSource
    (ExtractedBlock.ofBlob asset.tenantId asset.documentId asset.assetId modality mime data)
    url status

/-- The URL of the asset. -/
def requireUrl (asset : AssetInput) : Except Error (List Char) :=
  match asset.storageKey with
  | none => .error (.notFound "asset.storage_key")
  | some url =>
    if !isHttp url then
      .error (.other ("storage_key is not an http(s) URL: " ++ String.ofList url))
    else .ok url

/-- The block of the bytes that were fetched. -/
def blockOf (asset : AssetInput) (url : List Char) (page : Page) : ExtractedBlock :=
  let mime := detectMime crates page.contentType page.bytes
  let modality := modalityForMime mime
  match toText crates mime page.bytes with
  | some text => asTextBlock asset (some mime) text page.bytes.length url page.status
  | none => asBlobBlock asset modality (some mime) page.bytes url page.status

def extract (client : Client) (asset : AssetInput) : Except Error (List ExtractedBlock) := do
  let url ← requireUrl asset
  let page ← getUrl crates client url
  pure [blockOf crates asset url page]

end Contexide.Extractor.HttpExtractor
