import Parins.Policy.Publication
import Parins.Cache.Identity
import Parins.Limits.Rates
import Parins.Recursion.Outbound
import Parins.Policy.Chains
import Parins.Policy.Order
import Parins.Policy.Witness
import Parins.Policy.Bounds
import Parins.Cache.NegativeChain
import Parins.Cache.Hits
import Parins.Cache.Churn
import Parins.Update.Fences
import Parins.Filters.Collection
import Parins.Manage.Revocation
import Parins.Upstreams.Weighted
import Parins.Manage.AuthBudget
import Parins.Update.Readiness
import Parins.Resolver.RefreshLock
import Parins.Resolver.Flight
