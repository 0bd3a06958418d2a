import DeOptiTransfer.Container.Arbitrary
import DeOptiTransfer.Container.DeviceName
import DeOptiTransfer.Container.Opening
import DeOptiTransfer.Container.Relay
import DeOptiTransfer.Container.SafeName
import DeOptiTransfer.Fountain.Accounting
import DeOptiTransfer.Fountain.Causal
import DeOptiTransfer.Fountain.Degrees
import DeOptiTransfer.Fountain.Linear
import DeOptiTransfer.Fountain.Rejected
import DeOptiTransfer.Fountain.Selection
import DeOptiTransfer.Fountain.SubsetPaths
import DeOptiTransfer.Judge.Composition
import DeOptiTransfer.Judge.Soundness
import DeOptiTransfer.Judge.Tamper
import DeOptiTransfer.Session.Delivery
import DeOptiTransfer.Session.Fitting
import DeOptiTransfer.Session.Limits
import DeOptiTransfer.Session.QuickStart
import DeOptiTransfer.Session.Sequence
import DeOptiTransfer.Session.Streams
import DeOptiTransfer.Set.Consecutive
import DeOptiTransfer.Simd
