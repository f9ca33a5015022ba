import MarkerIndex.Bytes.Cursor
import MarkerIndex.Bytes.Hexadecimal
import MarkerIndex.ClassFile.Encode
import MarkerIndex.Index.Cache
import MarkerIndex.Proofs.ClassFile.Collector
import MarkerIndex.Proofs.ClassFile.Interning
import MarkerIndex.Proofs.ClassFile.Parts
import MarkerIndex.Proofs.ClassFile.Rebuilt
import MarkerIndex.Proofs.ClassFile.RoundTrip
import MarkerIndex.Proofs.ClassFile.Scalars
import MarkerIndex.Proofs.ClassFile.Values
import MarkerIndex.Proofs.ClassFile.Walks
import MarkerIndex.Proofs.Host.Attribution
import MarkerIndex.Proofs.Host.ChainShape
import MarkerIndex.Proofs.Host.Families
import MarkerIndex.Proofs.Host.Leaves
import MarkerIndex.Proofs.Host.MostDerived
import MarkerIndex.Value.Equality
import MarkerIndex.Value.Fingerprint
import MarkerIndex.View.Typed
import MarkerIndex.Proofs.Host.OwnMarkers
import MarkerIndex.Proofs.ClassFile.Faults
import MarkerIndex.Proofs.ClassFile.Protocol
import MarkerIndex.Proofs.ClassFile.Declining
import MarkerIndex.Proofs.ClassFile.Nesting
import MarkerIndex.Proofs.ClassFile.Reading
import MarkerIndex.Proofs.ClassFile.Target
import MarkerIndex.Proofs.Bytes.Cuts
import MarkerIndex.Proofs.Index.Caching
import MarkerIndex.Proofs.ClassFile.Truncation
import MarkerIndex.Proofs.ClassFile.Naming
import MarkerIndex.Proofs.ClassFile.Demands
import MarkerIndex.Proofs.ClassFile.Narrow
import MarkerIndex.Proofs.ClassFile.Acceptance
import MarkerIndex.Proofs.ClassFile.Normal
import MarkerIndex.Proofs.Value.Extensionality
import MarkerIndex.Proofs.Value.Fingerprint
import MarkerIndex.Proofs.ClassFile.Limits
import MarkerIndex.Proofs.Host.Tables
import MarkerIndex.Proofs.Index.Groups
import MarkerIndex.Proofs.Index.Sources
import MarkerIndex.Proofs.ClassFile.Visibility
import MarkerIndex.Proofs.View.Sight
import MarkerIndex.Proofs.Index.Retention
import MarkerIndex.Proofs.Host.Inheritance
import MarkerIndex.Proofs.Host.ChainBounds
import MarkerIndex.Proofs.Host.Assignability
import MarkerIndex.Proofs.ClassFile.Requests
import MarkerIndex.Proofs.Text.Spelling
import MarkerIndex.Proofs.ClassFile.Trees
import MarkerIndex.Proofs.Bytes.Parsing
import MarkerIndex.Proofs.ClassFile.Parsing
import MarkerIndex.Proofs.ClassFile.Grammar
import MarkerIndex.Proofs.ClassFile.Recognition
import MarkerIndex.Proofs.ClassFile.Filing
import MarkerIndex.Proofs.Layered.Listing
import MarkerIndex.Proofs.Layered.Shadowing
import MarkerIndex.Proofs.View.Resolution
import MarkerIndex.Proofs.Number.Numerals
import MarkerIndex.Proofs.View.Widths
import MarkerIndex.Proofs.View.Typing
import MarkerIndex.Proofs.View.Texts
import MarkerIndex.Proofs.Index.Accessible
import MarkerIndex.Proofs.Index.Presence
import MarkerIndex.Proofs.Host.Declarations
import MarkerIndex.Proofs.ClassFile.Slots
import MarkerIndex.Proofs.ClassFile.Wanted
import MarkerIndex.Proofs.ClassFile.Capacity
import MarkerIndex.Proofs.Bytes.Places
