import Aimsgui.Buffering
import Aimsgui.Lib.Run
import Aimsgui.Lib.Coalesce
import Aimsgui.Pointers
import Aimsgui.Strings
import Aimsgui.Alert
import Aimsgui.AlertWatchers
import Aimsgui.AlertDeadlock
import Aimsgui.Alertwin
import Aimsgui.Selections
import Aimsgui.Lib.Links
import Aimsgui.Zorder
import Aimsgui.Wm
import Aimsgui.Handled
import Aimsgui.Mainloop
import Aimsgui.Packing
import Aimsgui.BottomPointer
import Aimsgui.Handshake
import Aimsgui.Lib.Tiling
import Aimsgui.Rows
import Aimsgui.RowLayout
import Aimsgui.Placing
import Aimsgui.Control
import Aimsgui.Listing
import Aimsgui.Focus
import Aimsgui.Images
import Aimsgui.Stacking
import Aimsgui.AlertRings
import Aimsgui.Soundlist
import Aimsgui.Watcher
import Aimsgui.WatcherReports
import Aimsgui.Server
import Aimsgui.Lib.Echo
import Aimsgui.Sizes
import Aimsgui.Repacking
import Aimsgui.Fitting
import Aimsgui.Dragging
import Aimsgui.Stacks
import Aimsgui.Floating
import Aimsgui.Departing
import Aimsgui.Reshaping
import Aimsgui.Pressing
import Aimsgui.Titles
import Aimsgui.Display
import Aimsgui.TabBar
import Aimsgui.Mirror
import Aimsgui.Sweeping
import Aimsgui.Lib.FixedPoint
import Aimsgui.Scaling
import Aimsgui.Coalescing
import Aimsgui.Injection
import Aimsgui.Commands
import Aimsgui.Registry
import Aimsgui.Audio
import Aimsgui.Snarf
import Aimsgui.Console
import Aimsgui.Lib.Fields
import Aimsgui.Serverlist
import Aimsgui.Serving
import Aimsgui.Wedging
import Aimsgui.Addressing
import Aimsgui.Lib.Bisect
import Aimsgui.Lib.Shellsort
import Aimsgui.Winplace
import Aimsgui.Crossing
import Aimsgui.Freespace
import Aimsgui.Placement
import Aimsgui.Neat
import Aimsgui.Lib.Custody
import Aimsgui.Topbar
import Aimsgui.Posting
import Aimsgui.Heading
import Aimsgui.Tray
import Aimsgui.Stowing
import Aimsgui.Matching
