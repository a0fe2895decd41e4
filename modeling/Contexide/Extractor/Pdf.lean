import Contexide.Extractor.Mime

/-! The PDF extractor: fetches bytes over HTTP or from a blob store, and returns one block
when their media type is that of a PDF. -/

namespace Contexide.Extractor.PdfExtractor

open StoragePg Text

variable (crates : Crates)

def detectMime (hint : Option (List Char)) (data : List UInt8) : List Char :=
  Extractor.detectMime crates hint data

/-- Whether the media type looks like PDF. -/
def isPdf (mime : List Char) : Bool :=
  mime == "application/pdf".toList || mime == "application/x-pdf".toList

def withMeta (b : ExtractedBlock) (extraMeta : List (String × Json)) : ExtractedBlock :=
  extraMeta.foldl (fun b entry => b.insert entry.1 entry.2) b

def asTextBlock (asset : AssetInput) (mime : Option (List Char)) (text : List Char)
    (bytesLen : ℕ) (extraMeta : List (String × Json)) : ExtractedBlock :=
  let b := ExtractedBlock.ofText asset.tenantId asset.documentId asset.assetId mime text
  withMeta (b.insert "bytes_len" (.number (.posInt bytesLen.toUInt64))) extraMeta

def asBlobBlock (asset : AssetInput) (mime : Option (List Char)) (data : List UInt8)
    (extraMeta : List (String × Json)) : ExtractedBlock :=
  withMeta (ExtractedBlock.ofBlob asset.tenantId asset.documentId asset.assetId .binary mime data)
    extraMeta

/-- Bytes, content type and status: over HTTP for a URL, else from the blob store. -/
def fetchBytes (store : BlobStore) (client : Client) (asset : AssetInput) :
    Except Error (List UInt8 × Option (List Char) × Option UInt16) :=
  match asset.storageKey with
  | none => .error (.notFound "asset.storage_key")
  | some key =>
    if isHttp key then do
      let page ← getUrl crates client key
      pure (page.bytes, page.contentType, some page.status)
    else do
      let bytes ← store key
      pure (bytes, asset.contentType, none)

def metaOf (asset : AssetInput) (mime : List Char) (httpStatus : Option UInt16) :
    List (String × Json) :=
  [("content_type", .string (String.ofList mime))] ++
    (httpStatus.map fun status =>
      ("http_status", Json.number (.posInt status.toUInt64))).toList ++
    ((asset.storageKey.filter fun url => "http".toList.isPrefixOf url).map fun url =>
      ("source_url", Json.string (String.ofList url))).toList

/-- The block of a PDF, or its bytes when no text can be extracted. -/
def blockOf (asset : AssetInput) (mime : List Char) (bytes : List UInt8)
    (httpStatus : Option UInt16) : Except Error ExtractedBlock :=
  match crates.pdfExtract bytes with
  | .error e => .error (.other ("pdf extract failed: " ++ e))
  | .ok text =>
    let pdf := some "application/pdf".toList
    let extraMeta := metaOf asset mime httpStatus
    if trim text ≠ [] then .ok (asTextBlock asset pdf (trim text) bytes.length extraMeta)
    else .ok (asBlobBlock asset pdf bytes extraMeta)

def extract (store : BlobStore) (client : Client) (asset : AssetInput) :
    Except Error (List ExtractedBlock) := do
  let (bytes, ctHint, httpStatus) ← fetchBytes crates store client asset
  if bytes.isEmpty then pure []
  else
    let mime := detectMime crates ctHint bytes
    if !isPdf mime then pure []
    else
      let block ← blockOf crates asset mime bytes httpStatus
      pure [block]

end Contexide.Extractor.PdfExtractor
