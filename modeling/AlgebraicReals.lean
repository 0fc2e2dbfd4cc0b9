import AlgebraicReals.Context
import AlgebraicReals.Proofs.Horner.Text
import AlgebraicReals.Interval.Division
import AlgebraicReals.Proofs.Poly.Canonical
import AlgebraicReals.Proofs.Poly.Text
import AlgebraicReals.Proofs.RealSign
import AlgebraicReals.Proofs.Sturm.Variations
import AlgebraicReals.Proofs.Interval.Membership
import AlgebraicReals.Proofs.Sturm.Counting
import AlgebraicReals.Proofs.Sturm.Sequence
import AlgebraicReals.Proofs.Search
import AlgebraicReals.Proofs.IsolatedRoot.Isolation
import AlgebraicReals.Proofs.IsolatedRoot.Runs
import AlgebraicReals.Proofs.IsolatedRoot.Bisection
import AlgebraicReals.Proofs.IsolatedRoot.Order
import AlgebraicReals.Proofs.IsolatedRoot.Loops
import AlgebraicReals.Proofs.Number.Order
import AlgebraicReals.Proofs.Interval.Enclosure
import AlgebraicReals.Proofs.Interval.Nearness
import AlgebraicReals.Proofs.Interval.Bound
import AlgebraicReals.Proofs.Interval.Stored
import AlgebraicReals.Proofs.Interval.Programs
import AlgebraicReals.Proofs.Horner.Enclosure
import AlgebraicReals.Proofs.IsolatedRoot.SignOf
import AlgebraicReals.Proofs.Number.SignOf
import AlgebraicReals.Proofs.Number.Budget
import AlgebraicReals.Proofs.Number.Construction
import AlgebraicReals.Proofs.Number.Resume
import AlgebraicReals.Proofs.Context.Sessions
import AlgebraicReals.Proofs.Interval.Image
import AlgebraicReals.Proofs.Horner.Tightness
import AlgebraicReals.Proofs.Number.Simplify
import AlgebraicReals.Proofs.Context.Accounting
import AlgebraicReals.Proofs.IsolatedRoot.Containment
import AlgebraicReals.Proofs.Interval.Laws
import AlgebraicReals.Proofs.Interval.Inclusion
import AlgebraicReals.Proofs.IsolatedRoot.Branching
import AlgebraicReals.Proofs.IsolatedRoot.History
