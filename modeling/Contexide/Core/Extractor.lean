import Contexide.Core.Json
import Contexide.Storage.Table
import Contexide.StoragePg.Children

/-! Extraction contracts: the asset to extract and the blocks that come out. Texts are
lists of characters. -/

namespace Contexide

open Storage StoragePg

structure AssetInput where
  tenantId : TenantId
  documentId : DocumentId
  assetId : AssetId
  storageKey : Option (List Char)
  contentType : Option (List Char)

structure ExtractedBlock where
  tenantId : TenantId
  documentId : DocumentId
  assetId : AssetId
  modality : BlockModality
  mime : Option (List Char)
  text : Option (List Char)
  blob : Option (List UInt8)
  metadata : Assoc String Json

namespace ExtractedBlock

def ofText (tenantId : TenantId) (documentId : DocumentId) (assetId : AssetId)
    (mime : Option (List Char)) (text : List Char) : ExtractedBlock where
  tenantId
  documentId
  assetId
  modality := .text
  mime
  text := some text
  blob := none
  metadata := Table.empty

def ofBlob (tenantId : TenantId) (documentId : DocumentId) (assetId : AssetId)
    (modality : BlockModality) (mime : Option (List Char)) (blob : List UInt8) :
    ExtractedBlock where
  tenantId
  documentId
  assetId
  modality
  mime
  text := none
  blob := some blob
  metadata := Table.empty

/-- Set an entry of the metadata. -/
def insert (b : ExtractedBlock) (key : String) (value : Json) : ExtractedBlock :=
  { b with metadata := b.metadata.insert key value }

end ExtractedBlock

end Contexide
