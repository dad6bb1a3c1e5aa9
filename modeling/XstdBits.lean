import XstdBits.Container.Growth
import XstdBits.Container.Machine
import XstdBits.Set.Insertion
import XstdBits.Set.Iterator
import XstdBits.Set.View
import XstdBits.Set.Walk
import XstdBits.Set.Translate
import XstdBits.Set.Keys
import XstdBits.Set.Lookup
import XstdBits.Reading.Convert
import XstdBits.Set.Flags
import XstdBits.Valarray.Gather
import XstdBits.Sequence.Strong
import XstdBits.Sequence.Refinement
import XstdBits.Valarray.Rotation
import XstdBits.Container.Contents
import XstdBits.Set.Iota
import XstdBits.Set.Erasure
import XstdBits.Set.Transparent
import XstdBits.Set.Advance
import XstdBits.Valarray.Proxy
import XstdBits.Algorithm.Search
import XstdBits.Algorithm.Copy
import XstdBits.Valarray.Kernels
import XstdBits.Algorithm.Permute
import XstdBits.Valarray.Elementwise
import XstdBits.Set.Predicates
import XstdBits.Reading.HashBools
import XstdBits.Algorithm.ForEach
import XstdBits.Set.EraseIf
import XstdBits.Reading.Transport
import XstdBits.Set.ShiftBy
import XstdBits.Valarray.Machine
import XstdBits.Sequence.Shared
import XstdBits.Sequence.Capacity
import XstdBits.Opt.Twins
import XstdBits.Set.Readings
import XstdBits.Reading.Foreign
import XstdBits.Reading.Route
