import Uri.Basic
import Uri.Element
import Uri.Address
import Uri.Impl
import Uri.Authority
import Uri.Parse
import Uri.Normalize
import Uri.DotSegments
import Uri.Resolve
import Uri.Generate
import Uri.Grammar
import Uri.Components
import Uri.ParseStages
import Uri.HostMachine
import Uri.Recomposition
import Uri.CaseVariant
import Uri.RoundTrip
import Uri.Resolution
import Uri.Congruence
import Uri.Calls
import Uri.DottedQuad
import Uri.OctetOverflow
import Uri.Ipv6Groups
import Uri.Ipv6Hex
import Uri.AuthorityLanguage
import Uri.ParseLanguage
