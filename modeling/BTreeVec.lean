import BTreeVec.Model.Client
import BTreeVec.Model.Program
import BTreeVec.Proof.Refine
import BTreeVec.Proof.Shape
import BTreeVec.Proof.Height
import BTreeVec.Proof.Ownership
import BTreeVec.Proof.Iterate
import BTreeVec.Proof.Consume
import BTreeVec.Proof.Clone
import BTreeVec.Proof.InsertOnce
import BTreeVec.Proof.RemoveOnce
import BTreeVec.Proof.Lookup
import BTreeVec.Proof.Skip
import BTreeVec.Proof.Locality
import BTreeVec.Proof.Program
import BTreeVec.Proof.Safety
import BTreeVec.Proof.Ledger
import BTreeVec.Proof.Traits
import BTreeVec.Proof.Bounds
import BTreeVec.Proof.Debug
