import Unameit.Address.Masks
import Unameit.Auth.Limits
import Unameit.Inet.Checks
import Unameit.Inet.Subnet
import Unameit.Inet.Update
import Unameit.Meta.Loss
import Unameit.NetCheck.Nets
import Unameit.NetCheck.Nodes
import Unameit.NetCheck.Ranges
import Unameit.OrderedList
import Unameit.Pull.Regions
import Unameit.Qbe.Glob
import Unameit.Qbe.Sort
import Unameit.Range.Auto
import Unameit.Refint.Cascade
import Unameit.Refint.Report
import Unameit.Region.Operations
import Unameit.Tx.Idle
import Unameit.Unique
import Unameit.Uuid.Text
import Unameit.Wire.Safety
import Unameit.Wire.Session
