import Contexide.Extractor.Mime

/-! The file extractor: fetches the bytes of the storage key from a blob store and returns
one block, or none for no bytes. -/

namespace Contexide.Extractor.BlobFileExtractor

open StoragePg

variable (crates : Crates)

def detectMime (hint : Option (List Char)) (data : List UInt8) : List Char :=
  Extractor.detectMime crates hint data

def modalityForMime (mime : List Char) : BlockModality := Extractor.modalityForMime mime

def toText (mime : List Char) (data : List UInt8) : Option (List Char) :=
  Extractor.toText crates mime data

def asTextBlock (asset : AssetInput) (mime : Option (List Char)) (text : List Char)
    (bytesLen : ℕ) : ExtractedBlock :=
  (ExtractedBlock.ofText asset.tenantId asset.documentId asset.assetId mime text).insert
    "bytes_len" (.number (.posInt bytesLen.toUInt64))

def asBlobBlock (asset : AssetInput) (modality : BlockModality) (mime : Option (List Char))
    (data : List UInt8) : ExtractedBlock :=
  ExtractedBlock.ofBlob asset.tenantId asset.documentId asset.assetId modality mime data

/-- The block of the bytes that were fetched. -/
def blockOf (asset : AssetInput) (data : List UInt8) : ExtractedBlock :=
  let mime := detectMime crates asset.contentType data
  let modality := modalityForMime mime
  match toText crates mime data with
  | some text => asTextBlock asset (some mime) text data.length
  | none => asBlobBlock asset modality (some mime) data

def extract (store : BlobStore) (asset : AssetInput) : Except Error (List ExtractedBlock) :=
  match asset.storageKey with
  | none => .error (.notFound "asset.storage_key")
  | some key => do
    let data ← store key
    if data.isEmpty then pure []
    else pure [blockOf crates asset data]

end Contexide.Extractor.BlobFileExtractor
