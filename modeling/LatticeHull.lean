import LatticeHull.Comparand
import LatticeHull.Datum.CrossProduct
import LatticeHull.Fingerprint
import LatticeHull.Hull.Saving
import LatticeHull.Proofs.Binary.Reading
import LatticeHull.Proofs.Border
import LatticeHull.Proofs.HalfSpace
import LatticeHull.Proofs.Hull.Atomicity
import LatticeHull.Proofs.Hull.Backlog
import LatticeHull.Proofs.Hull.Growth
import LatticeHull.Proofs.Hull.Histories
import LatticeHull.Proofs.Hull.Ledger
import LatticeHull.Proofs.Hull.Membership
import LatticeHull.Proofs.Hull.Memory
import LatticeHull.Proofs.Hull.Order
import LatticeHull.Proofs.Hull.Recursion
import LatticeHull.Proofs.Hull.Saving
import LatticeHull.Proofs.Hull.Translation
import LatticeHull.Proofs.MeshFile.Appending
import LatticeHull.Proofs.MeshFile.Edits
import LatticeHull.Proofs.MeshFile.Requests
import LatticeHull.Proofs.Region.Completeness
import LatticeHull.Proofs.Triangle.Equality
import LatticeHull.Scene
import LatticeHull.Scene.PolyData
import LatticeHull.Table.Norm
import LatticeHull.Triangle.Reading
