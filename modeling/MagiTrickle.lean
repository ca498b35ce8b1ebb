import MagiTrickle.Api.Bounds
import MagiTrickle.Api.Refused
import MagiTrickle.Api.UniqueIds
import MagiTrickle.Api.WriteBack
import MagiTrickle.Auth.Tokens
import MagiTrickle.Config.DurationRoundTrip
import MagiTrickle.Crypto.Hashes
import MagiTrickle.Dns.Coverage
import MagiTrickle.Dns.Deadlines
import MagiTrickle.Dns.ExchangeViews
import MagiTrickle.Dns.FramingViews
import MagiTrickle.Dns.Inflight
import MagiTrickle.Dns.Lifetimes
import MagiTrickle.Dns.Presentation
import MagiTrickle.Dns.ProxyViews
import MagiTrickle.Dns.Segments
import MagiTrickle.Dns.WireRoundTrip
import MagiTrickle.DnsCache.Cleanup
import MagiTrickle.DnsCache.Lookups
import MagiTrickle.Frontend.AckExact
import MagiTrickle.Frontend.GroupsMove
import MagiTrickle.Frontend.RuleOrder
import MagiTrickle.Http.CleanPath
import MagiTrickle.Http.Stream
import MagiTrickle.Iptables.ExecutableReturns
import MagiTrickle.Iptables.ListingExact
import MagiTrickle.Iptables.Staging
import MagiTrickle.Netfilter.CommitterSafe
import MagiTrickle.Netfilter.GroupScript
import MagiTrickle.Netfilter.IpsetNl
import MagiTrickle.Netfilter.MarkViews
import MagiTrickle.Netfilter.Permanent
import MagiTrickle.Netfilter.RebuildOrder
import MagiTrickle.Netlink.RtnlRun
import MagiTrickle.Platform.Cancel
import MagiTrickle.Platform.Posts
import MagiTrickle.Platform.TimerCount
import MagiTrickle.Rules.IndexSets
import MagiTrickle.Rules.WildcardExact
import MagiTrickle.Runtime.ApiRuns
import MagiTrickle.Runtime.Delivery
import MagiTrickle.Runtime.Mirroring
import MagiTrickle.Subscriptions.Refresh
import MagiTrickle.Subscriptions.Subnets
import MagiTrickle.Yaml.Reload
