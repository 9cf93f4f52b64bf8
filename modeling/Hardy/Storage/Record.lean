import Hardy.Bpa.Admission
import Hardy.Pattern.Node

/-!
# The stored record

The bundle that a metadata store keeps (`bpa/src/bundle`), with the fields that
`Bpa.Store` leaves out: the peer of an ingress and the extension cache have
endpoint ids of their own.  The address of the peer is left out, and so is the
next hop that is never stored.
-/

namespace Hardy.Storage

open Bpa (BundleStatus ExtensionFields)

inductive Origin where
  | ingress (peerNode : Option NodeId) (cla : String)
  | originated
  | recovered
deriving DecidableEq

structure BundleMetadata where
  receivedAt : Int
  origin : Origin
  extensions : ExtensionFields
  storageName : Option String
  flowLabel : Option Nat

structure Bundle where
  bpv7 : Hardy.Bundle
  metadata : BundleMetadata
  status : BundleStatus

namespace Bundle

def id (b : Bundle) : Id := b.bpv7.primary.id

def receivedAt (b : Bundle) : Int := b.metadata.receivedAt

def expiry (b : Bundle) : Int :=
  b.bpv7.primary.expiry b.metadata.extensions.age b.metadata.receivedAt

def hasExpired (b : Bundle) (now : Int) : Bool := b.expiry ≤ now

@[simp] theorem id_status (b : Bundle) (status : BundleStatus) :
    ({ b with status } : Bundle).id = b.id := rfl

/-- A bundle without blocks from a source to the endpoint `ipn:2.1`. -/
def plain (source : Eid) (status : BundleStatus) : Bundle where
  bpv7 :=
    { primary :=
        { flags := {}
          id := ⟨source, ⟨some 1, 0⟩, none⟩
          crcType := .none
          destination := .ipn ⟨0, 2⟩ 1
          reportTo := .null
          lifetime := .fromMillis 1000 }
      blocks := ∅ }
  metadata := ⟨0, .originated, {}, none, none⟩
  status := status

end Bundle

end Hardy.Storage
